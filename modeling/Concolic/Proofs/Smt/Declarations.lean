import Concolic.Proofs.Smt.Agreement

/-!
# Declared constants

What the declarations of a context say about sorts and values.  Adding the leaves of an expression
keeps what was declared, declares every input among them at the width of its type, and declares
nothing twice.
-/

namespace Concolic.Smt

/-- Each constant among the leaves has the low bits of the value that evaluation reads for its
input. -/
def Assigns (assignment : Symbol → Value) (inputs : List Value) (leaves : List Leaf) : Prop :=
  ∀ id ty value, .input id ty value ∈ leaves →
    (assignment (.input id)).setWidth ty.bits =
      (Expr.evaluate inputs (.input id ty value)).setWidth ty.bits

namespace Context

/-- The width of the first declaration of a constant. -/
def width? (context : Context) (name : Symbol) : Option Nat :=
  (context.declared.find? fun entry ↦ entry.1 == name).map Prod.snd

def sorts (context : Context) (name : Symbol) : Option TermSort :=
  (context.width? name).map .word

/-- Every declared constant has the low bits of its number. -/
def environment (context : Context) (assignment : Symbol → Value) : Environment :=
  fun name ↦ (context.width? name).map fun bits ↦ .word bits ((assignment name).setWidth bits)

/-- No constant is declared twice. -/
def DeclaresOnce (context : Context) : Prop :=
  (context.declared.map Prod.fst).Nodup

/-- The inputs among the leaves that are declared have the width of their type. -/
def Admits (context : Context) (leaves : List Leaf) : Prop :=
  ∀ id ty value, .input id ty value ∈ leaves →
    ∀ width, (.input id, width) ∈ context.declared → width = ty.bits

theorem sorts_eq_map_environment (context : Context) (assignment : Symbol → Value)
    (name : Symbol) :
    context.sorts name = (context.environment assignment name).map Meaning.sort := by
  simp only [sorts, environment, Option.map_map]
  rfl

theorem declares_iff (context : Context) (name : Symbol) :
    context.declares name = true ↔ ∃ width, (name, width) ∈ context.declared := by
  simp [declares]

theorem width?_mem {context : Context} {name : Symbol} {width : Nat}
    (found : context.width? name = some width) : (name, width) ∈ context.declared := by
  obtain ⟨⟨first, bits⟩, here, rfl⟩ := Option.map_eq_some_iff.mp found
  have same : first = name := by simpa using List.find?_some here
  rw [← same]
  exact List.mem_of_find?_eq_some here

theorem width?_isSome_iff (context : Context) (name : Symbol) :
    (context.width? name).isSome = true ↔ ∃ width, (name, width) ∈ context.declared := by
  simp [width?]

/-! ## Declarations of one reference -/

theorem mem_declared_reference (context : Context) (name : Symbol) (bits : Nat)
    (entry : Symbol × Nat) :
    entry ∈ (context.reference name bits).declared ↔
      entry ∈ context.declared ∨ context.declares name = false ∧ entry = (name, bits) := by
  unfold reference
  split
  · next known => simp [known]
  · next unknown => simp [declare, unknown]

/-- The first width that a constant is declared at stays. -/
theorem width?_reference (context : Context) (name : Symbol) (bits : Nat) (other : Symbol) :
    (context.reference name bits).width? other =
      if other = name then some ((context.width? name).getD bits) else context.width? other := by
  cases known : context.declares name with
  | true =>
    rw [reference_of_declares _ _ _ known]
    obtain ⟨width, found⟩ := Option.isSome_iff_exists.mp
      ((width?_isSome_iff ..).mpr ((declares_iff ..).mp known))
    split
    · next same => rw [same, found, Option.getD_some]
    · rfl
  | false =>
    have unknown : context.width? name = none := by
      rw [← Option.not_isSome_iff_eq_none, width?_isSome_iff, ← declares_iff, known]
      exact Bool.false_ne_true
    rw [reference, known, if_neg Bool.false_ne_true, unknown, Option.getD_none, declare, width?,
      List.find?_append, Option.map_or]
    split
    · next same =>
      rw [same, ← width?, unknown]
      simp
    · next apart =>
      have last : List.find? (fun entry : Symbol × Nat ↦ entry.1 == other) [(name, bits)] = none := by
        simp [Ne.symm apart]
      rw [last, ← width?]
      simp

theorem declaresOnce_reference {context : Context} (once : context.DeclaresOnce) (name : Symbol)
    (bits : Nat) : (context.reference name bits).DeclaresOnce := by
  unfold reference
  split
  · exact once
  · next unknown =>
    rw [declares_iff] at unknown
    simp only [DeclaresOnce, declare, List.map_append, List.map_cons, List.map_nil]
    refine List.nodup_append.mpr ⟨once, by simp, ?_⟩
    intro first member second single same
    obtain rfl : second = name := by simpa using single
    obtain ⟨entry, present, rfl⟩ := List.mem_map.mp member
    exact unknown ⟨entry.2, by rw [← same]; exact present⟩

/-! ## Declarations of leaves -/

theorem withLeaves_input (context : Context) (id : InputId) (ty : CType) (value : Value)
    (rest : List Leaf) :
    context.withLeaves (.input id ty value :: rest) =
      (context.reference (.input id) ty.bits).withLeaves rest :=
  rfl

theorem mem_declared_withLeaves {context : Context} {leaves : List Leaf} {entry : Symbol × Nat}
    (kept : entry ∈ context.declared) : entry ∈ (context.withLeaves leaves).declared := by
  induction leaves generalizing context with
  | nil => exact kept
  | cons leaf rest ih =>
    cases leaf with
    | const ty value => exact ih kept
    | input id ty value =>
      rw [withLeaves_input]
      exact ih ((mem_declared_reference ..).mpr (.inl kept))

/-- What is new in the context comes from a leaf. -/
theorem declared_withLeaves {context : Context} {leaves : List Leaf} {entry : Symbol × Nat}
    (present : entry ∈ (context.withLeaves leaves).declared) :
    entry ∈ context.declared ∨
      ∃ id ty value, .input id ty value ∈ leaves ∧ entry = (.input id, ty.bits) := by
  induction leaves generalizing context with
  | nil => exact .inl present
  | cons leaf rest ih =>
    cases leaf with
    | const ty value =>
      rcases ih present with old | ⟨id, other, second, member, same⟩
      · exact .inl old
      · exact .inr ⟨id, other, second, by simp [member], same⟩
    | input id ty value =>
      rw [withLeaves_input] at present
      rcases ih present with old | ⟨other, type, second, member, same⟩
      · rcases (mem_declared_reference ..).mp old with older | ⟨-, new⟩
        · exact .inl older
        · exact .inr ⟨id, ty, value, by simp, new⟩
      · exact .inr ⟨other, type, second, by simp [member], same⟩

theorem declares_withLeaves (context : Context) {leaves : List Leaf} {id : InputId} {ty : CType}
    {value : Value} (member : .input id ty value ∈ leaves) :
    ∃ width, (.input id, width) ∈ (context.withLeaves leaves).declared := by
  induction leaves generalizing context with
  | nil => simp at member
  | cons leaf rest ih =>
    rcases List.mem_cons.mp member with rfl | later
    · rw [withLeaves_input]
      have known := declares_reference context (.input id) ty.bits
      obtain ⟨width, here⟩ := (declares_iff ..).mp known
      exact ⟨width, mem_declared_withLeaves here⟩
    · cases leaf with
      | const other second => exact ih context later
      | input other type second =>
        rw [withLeaves_input]
        exact ih _ later

/-- Leaves that are declared already change nothing. -/
theorem withLeaves_of_declares {context : Context} {leaves : List Leaf}
    (known : ∀ id ty value, .input id ty value ∈ leaves →
      ∃ width, (.input id, width) ∈ context.declared) : context.withLeaves leaves = context := by
  induction leaves with
  | nil => rfl
  | cons leaf rest ih =>
    have later : context.withLeaves rest = context :=
      ih fun id ty value member ↦ known id ty value (List.mem_cons_of_mem _ member)
    cases leaf with
    | const ty value => exact later
    | input id ty value =>
      have here := (declares_iff ..).mpr (known id ty value (by simp))
      rw [withLeaves_input, reference_of_declares _ _ _ here, later]

theorem declaresOnce_withLeaves {context : Context} (once : context.DeclaresOnce)
    (leaves : List Leaf) : (context.withLeaves leaves).DeclaresOnce := by
  induction leaves generalizing context with
  | nil => exact once
  | cons leaf rest ih =>
    cases leaf with
    | const ty value => exact ih once
    | input id ty value =>
      rw [withLeaves_input]
      exact ih (declaresOnce_reference once _ _)

/-- Each input among the leaves ends up with the width of its type. -/
theorem width?_withLeaves {context : Context} {leaves : List Leaf}
    (typed : ∀ id ty other value second,
      .input id ty value ∈ leaves → .input id other second ∈ leaves → ty = other)
    (admits : context.Admits leaves) {id : InputId} {ty : CType} {value : Value}
    (member : .input id ty value ∈ leaves) :
    (context.withLeaves leaves).width? (.input id) = some ty.bits := by
  have known := (width?_isSome_iff ..).mpr (declares_withLeaves context member)
  obtain ⟨width, found⟩ := Option.isSome_iff_exists.mp known
  rw [found]
  rcases declared_withLeaves (width?_mem found) with old | ⟨other, type, second, here, same⟩
  · rw [admits id ty value member width old]
  · obtain ⟨rfl, rfl⟩ : id = other ∧ width = type.bits := by simpa using same
    rw [typed id type ty second value here member]

/-- Numbers with the low bits that evaluation reads for the inputs. -/
theorem suits_environment {context : Context} {leaves : List Leaf} {inputs : List Value}
    {assignment : Symbol → Value}
    (typed : ∀ id ty other value second,
      .input id ty value ∈ leaves → .input id other second ∈ leaves → ty = other)
    (admits : context.Admits leaves)
    (assigned : Assigns assignment inputs leaves) :
    Suits ((context.withLeaves leaves).environment assignment) inputs leaves := by
  intro id ty value member
  rw [environment, width?_withLeaves typed admits member, ← assigned id ty value member]
  rfl

end Context

end Concolic.Smt
