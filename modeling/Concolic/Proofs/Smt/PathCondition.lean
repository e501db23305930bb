import Concolic.Inspector.Basic
import Concolic.Proofs.Machine.Honest
import Concolic.Proofs.Smt.Script

/-!
# Exact path conditions

The constraints of an honest run without truth types become assertions of a script that a solver
accepts, and the path their conjunction.  The inputs of the run satisfy it, and any other inputs
satisfy it exactly when every condition goes on them the way that the run took.
-/

namespace Concolic

/-- The condition goes on these inputs the way that the run took. -/
def Constraint.meets (constraint : Constraint) (inputs : List Value) : Bool :=
  (constraint.condition.evaluate inputs != 0) == constraint.taken

namespace Smt

/-- The number of an input is its entry. -/
def numbers (inputs : List Value) : Symbol → Value
  | .input id => inputs[id.toNat]?.getD 0
  | _ => 0

/-! ## Conjunctions -/

section Conjunctions

variable {α : Type} {env : Environment} {terms : List Term} {items : List α} {truth : α → Bool}

theorem conjunctionMeaning_eq_all
    (means : terms.map (·.meaning env) = items.map fun item ↦ some (.truth (truth item))) :
    Term.conjunctionMeaning env terms = some (items.all truth) := by
  induction terms generalizing items with
  | nil =>
    obtain rfl : items = [] := List.map_eq_nil_iff.mp means.symm
    rfl
  | cons term terms ih =>
    obtain ⟨item, items, rfl, here, later⟩ := List.map_eq_cons_iff.mp means.symm
    have truthValue : term.meaning env = some (.truth (truth item)) := here.symm
    rw [Term.conjunctionMeaning, truthValue, ih later.symm, List.all_cons]
    rfl

/-- The conjunction of truth values means that all of them are true. -/
theorem meaning_all
    (means : terms.map (·.meaning env) = items.map fun item ↦ some (.truth (truth item))) :
    (Term.all terms).meaning env = some (.truth (items.all truth)) := by
  match terms with
  | [] =>
    obtain rfl : items = [] := List.map_eq_nil_iff.mp means.symm
    rfl
  | [term] =>
    obtain ⟨item, none, rfl, here, later⟩ := List.map_eq_cons_iff.mp means.symm
    obtain rfl : none = [] := List.map_eq_nil_iff.mp later
    have truthValue : term.meaning env = some (.truth (truth item)) := here.symm
    rw [Term.all, truthValue, List.all_cons, List.all_nil, Bool.and_true]
  | first :: second :: rest =>
    rw [Term.all, Term.meaning, if_pos (by simp), conjunctionMeaning_eq_all means]
    · rfl
    · simp
    · simp

end Conjunctions

/-! ## Sequences of constraints -/

theorem denotes_encodeConstraint {constraint : Constraint}
    (encodable : Expr.Everywhere Expr.Encodable constraint.condition) :
    Denotes (encodeConstraint constraint) constraint.condition.leaves
      fun inputs ↦ .truth (constraint.meets inputs) := by
  refine Denotes.map (agrees_of_encodable encodable).condition fun env inputs term condition ↦ ?_
  cases direction : constraint.taken with
  | true =>
    rw [if_pos rfl, condition, Constraint.meets, direction]
    simp
  | false =>
    rw [if_neg Bool.false_ne_true, meaning_negation condition, Constraint.meets, direction]
    simp

/-- The leaves of constraints in order. -/
def leavesOf (constraints : List Constraint) : List Leaf :=
  constraints.flatMap fun constraint ↦ constraint.condition.leaves

theorem emits_constraints {constraints : List Constraint}
    (encodable : ∀ constraint ∈ constraints,
      Expr.Everywhere Expr.Encodable constraint.condition) :
    ∃ terms, (constraints.mapM encodeConstraint).Emits terms (leavesOf constraints) ∧
      ∀ env inputs, Suits env inputs (leavesOf constraints) →
        terms.map (·.meaning env) =
          constraints.map fun constraint ↦ some (.truth (constraint.meets inputs)) := by
  induction constraints with
  | nil => exact ⟨[], Encoder.emits_pure [], fun _ _ _ ↦ rfl⟩
  | cons constraint rest ih =>
    obtain ⟨here, later⟩ := List.forall_mem_cons.mp encodable
    obtain ⟨term, emits, means⟩ := denotes_encodeConstraint here
    obtain ⟨terms, emitsRest, meansRest⟩ := ih later
    refine ⟨term :: terms, ?_, fun env inputs suits ↦ ?_⟩
    · rw [List.mapM_cons]
      exact emits.bind (emitsRest.map (term :: ·))
    · have first := means env inputs (suits.mono fun leaf member ↦ by simp [leavesOf, member])
      have others := meansRest env inputs (suits.mono fun leaf member ↦
        List.mem_flatMap.mpr <| by
          obtain ⟨other, among, inside⟩ := List.mem_flatMap.mp member
          exact ⟨other, List.mem_cons_of_mem _ among, inside⟩)
      rw [List.map_cons, List.map_cons, first, others]

/-! ## Records -/

/-- The declarations that the constraints of a record need. -/
def pathContext (record : Record) : Context :=
  Context.withLeaves {} (leavesOf record.path.constraints)

/-- Every condition has a bit-vector form, over inputs of the record at their types. -/
structure EncodableRecord (record : Record) : Prop where
  nodes : ∀ constraint ∈ record.path.constraints,
    Expr.Everywhere Expr.Encodable constraint.condition
  known : ∀ constraint ∈ record.path.constraints, ∀ id ty value,
    .input id ty value ∈ constraint.condition.leaves →
      record.vars.get? id = some ty ∧ id.toNat < record.inputs.length ∧ ty ≠ .bool

/-- The terms and declarations of a record describe its path condition. -/
structure ExactPath (record : Record) (assertions : List Term) (path : Term) (context : Context) :
    Prop where
  constraints : (record.path.constraints.mapM encodeConstraint).runIn {} = (.ok assertions, context)
  fresh : (encodePath record.path).runIn {} = (.ok path, context)
  shared : (encodePath record.path).runIn context = (.ok path, context)
  script : ∃ text, Inspector.script record = .ok text ∧
    Script.read text = some (Script.commands context assertions)
  accepted : Script.Accepted {} (Script.commands context assertions)
  once : context.DeclaresOnce
  widths : ∀ entry ∈ context.declared, ∃ id ty,
    record.vars.get? id = some ty ∧ entry = (.input id, ty.bits)
  text : Term.read path.text = some path
  sort : path.sort context.sorts = some .truth
  /-- The inputs of the run satisfy every assertion and the path. -/
  own : ∀ term ∈ path :: assertions,
    term.meaning (context.environment (numbers record.inputs)) = some (.truth true)
  /-- Other inputs satisfy the path exactly when all conditions go the same way. -/
  others : ∀ inputs : List Value, inputs.length = record.inputs.length →
    (path.meaning (context.environment (numbers inputs)) = some (.truth true) ↔
      ∀ constraint ∈ record.path.constraints,
        (constraint.condition.evaluate inputs != 0) = constraint.taken)

namespace EncodableRecord

variable {record : Record}

theorem typed (encodable : EncodableRecord record) (id : InputId) (ty other : CType)
    (value second : Value) (first : .input id ty value ∈ leavesOf record.path.constraints)
    (later : .input id other second ∈ leavesOf record.path.constraints) : ty = other := by
  obtain ⟨one, memberOne, here⟩ := List.mem_flatMap.mp first
  obtain ⟨two, memberTwo, there⟩ := List.mem_flatMap.mp later
  have left := (encodable.known one memberOne id ty value here).1
  have right := (encodable.known two memberTwo id other second there).1
  exact Option.some.inj (left.symm.trans right)

theorem assigns (encodable : EncodableRecord record) {inputs : List Value}
    (long : inputs.length = record.inputs.length) :
    Assigns (numbers inputs) inputs (leavesOf record.path.constraints) := by
  intro id ty value member
  obtain ⟨constraint, among, here⟩ := List.mem_flatMap.mp member
  obtain ⟨-, inside, notBool⟩ := encodable.known constraint among id ty value here
  have given : inputs[id.toNat]? = some inputs[id.toNat] := List.getElem?_eq_getElem (long ▸ inside)
  rw [numbers, Expr.evaluate, given]
  exact (CType.setWidth_normalize notBool _).symm

theorem declared (encodable : EncodableRecord record) {entry : Symbol × Nat}
    (member : entry ∈ (pathContext record).declared) :
    ∃ id ty, record.vars.get? id = some ty ∧ entry = (.input id, ty.bits) := by
  rcases Context.declared_withLeaves member with none | ⟨id, ty, value, present, same⟩
  · cases none
  · obtain ⟨constraint, among, here⟩ := List.mem_flatMap.mp present
    exact ⟨id, ty, (encodable.known constraint among id ty value here).1, same⟩

theorem input_of_declared (encodable : EncodableRecord record) {entry : Symbol × Nat}
    (member : entry ∈ (pathContext record).declared) : ∃ id, entry.1 = .input id := by
  obtain ⟨id, ty, -, rfl⟩ := encodable.declared member
  exact ⟨id, rfl⟩

theorem suits (encodable : EncodableRecord record) {inputs : List Value}
    (long : inputs.length = record.inputs.length) :
    Suits ((pathContext record).environment (numbers inputs)) inputs
      (leavesOf record.path.constraints) := by
  have unknown : Context.Admits {} (leavesOf record.path.constraints) :=
    fun id ty value _ width present ↦ by cases present
  exact Context.suits_environment encodable.typed unknown (encodable.assigns long)

/-- A second encoding of the constraints declares nothing. -/
theorem withLeaves_pathContext (record : Record) :
    (pathContext record).withLeaves (leavesOf record.path.constraints) = pathContext record :=
  Context.withLeaves_of_declares fun _ _ _ member ↦ Context.declares_withLeaves {} member

theorem sort_of_meaning (record : Record) (inputs : List Value) {term : Term} {value : Bool}
    (known : term.meaning ((pathContext record).environment (numbers inputs)) =
      some (.truth value)) :
    term.sort (pathContext record).sorts = some .truth := by
  rw [Term.sort_eq_map_meaning ((pathContext record).sorts_eq_map_environment (numbers inputs)),
    known]
  rfl

/-- When the conditions go on the inputs of the record the way that was taken, its terms and
declarations describe the path. -/
theorem exact_path (encodable : EncodableRecord record)
    (holds : ∀ constraint ∈ record.path.constraints, constraint.meets record.inputs = true) :
    ∃ assertions path context, ExactPath record assertions path context := by
  obtain ⟨assertions, emits, means⟩ := emits_constraints encodable.nodes
  have path : (encodePath record.path).Emits (.all assertions)
      (leavesOf record.path.constraints) := emits.map Term.all
  have nothing : Context.DeclaresOnce {} := List.nodup_nil
  have once : (pathContext record).DeclaresOnce := Context.declaresOnce_withLeaves nothing _
  have inputsOnly (entry : Symbol × Nat) (member : entry ∈ (pathContext record).declared) :
      ∃ id, entry.1 = .input id := encodable.input_of_declared member
  have meaning (inputs : List Value) (long : inputs.length = record.inputs.length) :
      assertions.map (·.meaning ((pathContext record).environment (numbers inputs))) =
        record.path.constraints.map fun constraint ↦ some (.truth (constraint.meets inputs)) :=
    means _ inputs (encodable.suits long)
  have ownPath := meaning_all (meaning record.inputs rfl)
  have ownAssertions (term : Term) (member : term ∈ assertions) :
      term.meaning ((pathContext record).environment (numbers record.inputs)) =
        some (.truth true) := by
    have among := List.mem_map_of_mem
      (f := (·.meaning ((pathContext record).environment (numbers record.inputs)))) member
    rw [meaning record.inputs rfl] at among
    obtain ⟨constraint, here, same⟩ := List.mem_map.mp among
    rw [← same, holds constraint here]
  have sorted (term : Term) (member : term ∈ assertions) :
      term.sort (pathContext record).sorts = some .truth :=
    sort_of_meaning record record.inputs (ownAssertions term member)
  have sortPath := sort_of_meaning record record.inputs ownPath
  refine ⟨assertions, .all assertions, pathContext record, ?_⟩
  exact {
    constraints := emits {}
    fresh := path {}
    shared := by rw [path (pathContext record), withLeaves_pathContext]
    script := by
      refine ⟨(pathContext record).script assertions, ?_, ?_⟩
      · rw [Inspector.script, emits {}]
        rfl
      · exact Script.read_script inputsOnly fun term member ↦ by
          rw [sorted term member]
          rfl
    accepted := Script.accepted_commands once sorted
    once := once
    widths := fun entry member ↦ encodable.declared member
    text := by
      refine Term.read_text (Context.onlyInputs_sorts inputsOnly) ?_
      rw [sortPath]
      rfl
    sort := sortPath
    own := by
      refine List.forall_mem_cons.mpr ⟨?_, ownAssertions⟩
      rw [ownPath, List.all_eq_true.mpr holds]
    others := by
      intro inputs long
      rw [meaning_all (meaning inputs long)]
      simp [Constraint.meets] }

end EncodableRecord

/-! ## Runs -/

section Runs

open Machine

theorem encodable_of_sound {inputs : List Value} {vars : WordMap 32 CType} {node : Expr}
    (sound : Sound (· ≠ .bool) inputs vars node) : node.Encodable := by
  have notBool := sound.admitted
  have shaped := sound.shaped
  cases node with
  | input | const => exact shaped
  | unary op e ty value => exact ⟨shaped.1, fun truth ↦ absurd truth notBool⟩
  | binary op l r ty value => exact ⟨shaped.1, notBool⟩
  | compare op l r ty value => exact shaped.1
  | pointer => trivial
  | slice whole offset bytes value => exact ⟨shaped.1, shaped.2.1.2.1⟩
  | assemble ty size parts value => exact ⟨shaped.1, notBool, shaped.2.1, shaped.2.2.1⟩

theorem encodableRecord_of_tracks {machine : Machine}
    (tracks : Tracks (· ≠ .bool) machine) : EncodableRecord machine.record where
  nodes constraint member :=
    (tracks.constraints constraint member).1.mono fun _ ↦ encodable_of_sound
  known constraint member := by
    have tracked := (tracks.constraints constraint member).1
    refine (Expr.everywhere_input_iff constraint.condition).mp ?_
    refine tracked.mono fun node sound id ty value same ↦ ?_
    obtain ⟨known, -⟩ := sound.known id ty value same
    have asked := tracks.asked id ty known
    have notBool : ty ≠ .bool := by
      have admitted := sound.admitted
      rwa [same] at admitted
    exact ⟨known, Nat.lt_of_lt_of_le asked tracks.counted, notBool⟩

/-- The path condition of an honest run without truth types is exported exactly, as long as the run
asks for no more inputs than there are numbers. -/
theorem run_exact_path {policy : PointerPolicy} {inputs : List Value} {events : List Event}
    {final : Machine} (narrow : (askedTypes events).length ≤ 2 ^ 32)
    (honest : (start policy inputs).HonestRun events)
    (usual : ∀ event ∈ events, event.type? ≠ some .bool)
    (ran : (start policy inputs).run events = .ok final) :
    final.record.inputs = inputs ∧
      ∃ assertions path context, ExactPath final.record assertions path context := by
  have tracks : Tracks (· ≠ .bool) final := by
    refine tracks_run (fun _ notBool ↦ notBool) narrow honest ?_ ran
    rintro event member ty typed rfl
    exact usual event member typed
  refine ⟨inputs_run ran, (encodableRecord_of_tracks tracks).exact_path fun constraint member ↦ ?_⟩
  obtain ⟨tracked, -, holds⟩ := tracks.constraints constraint member
  rw [Constraint.meets, tracked.evaluate_eq_value]
  exact holds

theorem run_exact_path_overlap :
    ∃ final, (start .follow [300, 7]).run overlapEvents = .ok final ∧
      final.record.path.constraints.length = 1 ∧ (askedTypes overlapEvents).length ≤ 2 ^ 32 ∧
      final.record.inputs = [300, 7] ∧
      ∃ assertions path context, ExactPath final.record assertions path context := by
  have narrow : (askedTypes overlapEvents).length ≤ 2 ^ 32 := by decide
  have honest : (start .follow [300, 7]).HonestRun overlapEvents := by decide +kernel
  exact ⟨_, rfl, rfl, narrow, run_exact_path narrow honest (by decide) rfl⟩

/-- A branch on an input of value one. -/
def branchEvents : List Event :=
  [.load 1 16 .int 1, .branch 2 3 true]

/-- The branch goes by the value that was recorded for the input. -/
theorem run_branchEvents (policy : PointerPolicy) (inputs : List Value) (last : Nat)
    (vars : WordMap 32 CType) :
    ∃ final, ((start policy inputs).rebound .int 16 last 1 vars).run branchEvents = .ok final ∧
      ((start policy inputs).rebound .int 16 last 1 vars).HonestRun branchEvents ∧
      final.record.path.constraints =
        [⟨0, (Expr.mkInput (.ofNat 32 last) .int 1).condition, true⟩] := by
  obtain ⟨loaded, first, result⟩ := load_rebound policy inputs last vars
  have honest : loaded.machine.Honest (.branch 2 3 true) := by
    rw [result]
    intro operand rest stack
    cases stack
    exact ⟨nofun, rfl⟩
  refine ⟨_, rfl, ⟨nofun, fun step stepped ↦ ?_⟩, rfl⟩
  rw [first] at stepped
  cases stepped
  exact ⟨honest, fun _ _ ↦ trivial⟩

/-- A branch on the input that got number zero again goes by the entry given for it.  The term of
its path is about the entry given for the first input, and false on the inputs of the run. -/
theorem not_run_exact_path_wrapped :
    ¬∀ (policy : PointerPolicy) (inputs : List Value) (events : List Event) (final : Machine),
      (start policy inputs).HonestRun events →
        (∀ event ∈ events, event.type? ≠ some .bool) →
        (start policy inputs).run events = .ok final →
          final.record.inputs = inputs ∧
            ∃ assertions path context, ExactPath final.record assertions path context := by
  intro all
  let inputs := lastDiffers (2 ^ 32)
  let events := List.replicate (2 ^ 32 + 1) (Event.newInput .int 16) ++ branchEvents
  obtain ⟨vars, asked⟩ := run_lastDiffers .forget (2 ^ 32)
  obtain ⟨final, branched, honestBranch, constraints⟩ := run_branchEvents .forget inputs _ vars
  have honest : (start .forget inputs).HonestRun events := by
    refine (honestRun_replicate fitsAt_int _).append fun middle ran ↦ ?_
    rw [asked] at ran
    exact Except.ok.inj ran ▸ honestBranch
  have branchUsual : ∀ event ∈ branchEvents, event.type? ≠ some .bool := by decide
  have usual (event : Event) (member : event ∈ events) : event.type? ≠ some .bool := by
    rcases List.mem_append.mp member with among | among
    · rw [List.eq_of_mem_replicate among]
      decide
    · exact branchUsual event among
  have ran : (start .forget inputs).run events = .ok final :=
    run_append_eq_ok.mpr ⟨_, asked, branched⟩
  obtain ⟨given, assertions, path, context, exact⟩ := all _ _ _ _ honest usual ran
  -- on the inputs of the run the term is true, so that the condition goes the way taken
  have own := exact.own path List.mem_cons_self
  rw [given] at own
  have met : ((Expr.mkInput (.ofNat 32 (2 ^ 32)) .int 1).condition.evaluate inputs != 0) = true :=
    (exact.others inputs (congrArg List.length given).symm).mp own _
      (constraints ▸ List.mem_cons_self)
  rw [Expr.evaluate_condition (fun _ ↦ by decide) (by decide),
    Expr.evaluate_mkInput (getElem?_lastDiffers_of_lt (by decide))] at met
  exact absurd met (by decide)

end Runs

end Smt

end Concolic
