import Concolic.Proofs.Expr.Delimited

/-!
# The infix text is unambiguous

An expression can be read off its text, but for what the text does not show, as long as no constant
is negative.  At each level above 2 a text is a row of operands that bind tighter, with operators of
the level between them, and the row is read from its left end.
-/

namespace Concolic.Expr

variable {e l r : Expr} {op : Infix} {limit level : Nat} {rest rest' : List Char}

/-! ## Rows of operands -/

/-- The leftmost operand of a row with operators of one level. -/
def first (level : Nat) : Expr → Expr
  | .binary op l r ty value =>
    if op.level = level then first level l else .binary op l r ty value
  | .compare op l r ty value =>
    if op.level = level then first level l else .compare op l r ty value
  | e => e

/-- The operators of one level in a row, each with the operand on its right. -/
def links (level : Nat) : Expr → List (Infix × Expr)
  | .binary op l r _ _ => if op.level = level then links level l ++ [(.binary op, r)] else []
  | .compare op l r _ _ => if op.level = level then links level l ++ [(.compare op, r)] else []
  | _ => []

/-- The operands of a row are written a level below the operators. -/
def row (level : Nat) : Expr → List (Infix × Expr) → List Char
  | e, [] => e.chars (level - 1)
  | e, (op, r) :: more =>
    e.chars (level - 1) ++ ' ' :: (op.symbol.toList ++ ' ' :: row level r more)

/-- Rows are read from the left. -/
def join (e : Expr) (links : List (Infix × Expr)) : Expr :=
  links.foldl (fun l link ↦
    match link.1 with
    | .binary op => .binary op l link.2 .int 0
    | .compare op => .compare op l link.2 .int 0) e

theorem row_concat (level : Nat) (e : Expr) (links : List (Infix × Expr)) (op : Infix) (r : Expr) :
    row level e (links ++ [(op, r)]) =
      row level e links ++ ' ' :: (op.symbol.toList ++ ' ' :: r.chars (level - 1)) := by
  induction links generalizing e with
  | nil => rfl
  | cons link links ih =>
    obtain ⟨op', r'⟩ := link
    simp only [List.cons_append, row, ih, List.append_assoc]

theorem first_of_operator (found : e.operator? = some (op, l, r)) (same : op.level = level) :
    e.first level = l.first level := by
  cases e <;> cases found <;> exact if_pos same

theorem links_of_operator (found : e.operator? = some (op, l, r)) (same : op.level = level) :
    e.links level = l.links level ++ [(op, r)] := by
  cases e <;> cases found <;> exact if_pos same

theorem first_of_ne (other : e.level ≠ level) : e.first level = e := by
  cases e with
  | binary | compare => exact if_neg other
  | _ => rfl

theorem links_of_ne (other : e.level ≠ level) : e.links level = [] := by
  cases e with
  | binary | compare => exact if_neg other
  | _ => rfl

/-- Induction along the row of a level. -/
@[elab_as_elim]
theorem rowInduction {motive : Expr → Prop} (above : 2 < level) (e : Expr)
    (stop : ∀ e, e.level ≠ level → motive e)
    (step : ∀ e op l r, e.operator? = some (op, l, r) → op.level = level → motive l → motive e) :
    motive e := by
  induction e with
  | binary op l r ty value ih _ =>
    by_cases same : (Infix.binary op).level = level
    · exact step _ (.binary op) l r rfl same ih
    · exact stop _ same
  | compare op l r ty value ih _ =>
    by_cases same : (Infix.compare op).level = level
    · exact step _ (.compare op) l r rfl same ih
    · exact stop _ same
  | _ => exact stop _ (by simp only [Expr.level]; omega)

theorem chars_eq_row (above : 2 < level) (e : Expr) :
    e.chars level = row level (e.first level) (e.links level) := by
  refine rowInduction above e (fun e other ↦ ?_) fun e op l r found same ih ↦ ?_
  · rw [first_of_ne other, links_of_ne other, row]
    exact chars_congr (by omega)
  · subst same
    rw [first_of_operator found rfl, links_of_operator found rfl, row_concat, ← ih,
      chars_operator found (Nat.le_refl _)]

theorem bare_eq_join (above : 2 < level) (e : Expr) :
    e.bare = join (e.first level).bare ((e.links level).map fun link ↦ (link.1, link.2.bare)) := by
  refine rowInduction above e (fun e other ↦ ?_) fun e op l r found same ih ↦ ?_
  · rw [first_of_ne other, links_of_ne other]
    rfl
  · rw [first_of_operator found same, links_of_operator found same, List.map_append, join,
      List.foldl_append]
    rw [join] at ih
    rw [← ih]
    cases e <;> cases found <;> rfl

theorem level_of_mem_links (above : 2 < level) (e : Expr) :
    ∀ link ∈ e.links level, link.1.level = level := by
  refine rowInduction above e (fun e other ↦ ?_) fun e op l r found same ih ↦ ?_
  · rw [links_of_ne other]
    exact List.forall_mem_nil _
  · rw [links_of_operator found same, List.forall_mem_append]
    exact ⟨ih, List.forall_mem_singleton.mpr same⟩

theorem natural_operator (found : e.operator? = some (op, l, r)) (natural : e.Natural) :
    l.Natural ∧ r.Natural := by
  cases e <;> cases found
  · exact (natural_binary ..).mp natural
  · exact (natural_compare ..).mp natural

theorem natural_row (above : 2 < level) (e : Expr) (natural : e.Natural) :
    (e.first level).Natural ∧ ∀ link ∈ e.links level, link.2.Natural := by
  revert natural
  refine rowInduction above e (fun e other natural ↦ ?_) fun e op l r found same ih natural ↦ ?_
  · rw [first_of_ne other, links_of_ne other]
    exact ⟨natural, List.forall_mem_nil _⟩
  · obtain ⟨left, right⟩ := natural_operator found natural
    rw [first_of_operator found same, links_of_operator found same, List.forall_mem_append]
    exact ⟨(ih left).1, (ih left).2, List.forall_mem_singleton.mpr right⟩

/-- Rows of operands that are determined are equal if their texts are. -/
theorem row_inj {links links' : List (Infix × Expr)} {e' : Expr} (above : 2 < level)
    (here : Determined e (level - 1))
    (each : ∀ link ∈ links, link.1.level = level ∧ Determined link.2 (level - 1))
    (natural : e'.Natural) (each' : ∀ link ∈ links', link.1.level = level ∧ link.2.Natural)
    (ends : Ends level rest) (ends' : Ends level rest')
    (same : row level e links ++ rest = row level e' links' ++ rest') :
    e.bare = e'.bare ∧ (links.map fun link ↦ (link.1, link.2.bare)) =
      (links'.map fun link ↦ (link.1, link.2.bare)) ∧ rest = rest' := by
  have tight (op : Infix) (same : op.level = level) (rest : List Char) :
      Ends (level - 1) (' ' :: (op.symbol.toList ++ ' ' :: rest)) :=
    .operator op (by omega) rest
  have apart {op : Infix} (same : op.level = level) {rest : List Char}
      (ends : Ends level (' ' :: (op.symbol.toList ++ ' ' :: rest))) : False := by
    have := ends.loose_operator
    omega
  induction links generalizing e e' links' with
  | nil =>
    cases links' with
    | nil =>
      obtain ⟨bares, rests⟩ := here e' rest rest' natural (ends.mono (Nat.sub_le _ _))
        (ends'.mono (Nat.sub_le _ _)) same
      exact ⟨bares, rfl, rests⟩
    | cons link' links' =>
      obtain ⟨op', r'⟩ := link'
      obtain ⟨⟨level', -⟩, -⟩ := List.forall_mem_cons.mp each'
      simp only [row, List.append_assoc, List.cons_append] at same
      obtain ⟨-, rests⟩ := here e' rest _ natural (ends.mono (Nat.sub_le _ _))
        (tight op' level' _) same
      rw [rests] at ends
      exact (apart level' ends).elim
  | cons link links ih =>
    obtain ⟨op, r⟩ := link
    obtain ⟨⟨levelHere, right⟩, later⟩ := List.forall_mem_cons.mp each
    simp only [row, List.append_assoc, List.cons_append] at same
    cases links' with
    | nil =>
      obtain ⟨-, rests⟩ := here e' _ rest' natural (tight op levelHere _)
        (ends'.mono (Nat.sub_le _ _)) same
      rw [← rests] at ends'
      exact (apart levelHere ends').elim
    | cons link' links' =>
      obtain ⟨op', r'⟩ := link'
      obtain ⟨⟨level', natural'⟩, later'⟩ := List.forall_mem_cons.mp each'
      simp only [row, List.append_assoc, List.cons_append] at same
      obtain ⟨bares, behind⟩ := here e' _ _ natural (tight op levelHere _) (tight op' level' _) same
      obtain ⟨symbols, tails⟩ := word_inj op.space_not_mem_symbol op'.space_not_mem_symbol
        (List.cons.inj behind).2
      obtain ⟨rights, linksEqual, rests⟩ := ih right later natural' later' tails
      rw [List.map_cons, List.map_cons, bares, linksEqual, rights,
        Infix.symbol_inj (String.toList_inj.mp symbols)]
      exact ⟨rfl, rfl, rests⟩

/-- The operands of the row of a level are determined a level below. -/
structure RowDetermined (level : Nat) (e : Expr) : Prop where
  first : Determined (e.first level) (level - 1)
  links : ∀ link ∈ e.links level, Determined link.2 (level - 1)

theorem RowDetermined.determined (above : 2 < level) (row : RowDetermined level e) :
    Determined e level := by
  intro other rest rest' natural ends ends' same
  obtain ⟨naturalFirst, naturalLinks⟩ := natural_row above other natural
  rw [chars_eq_row above, chars_eq_row above] at same
  obtain ⟨firsts, links, rests⟩ := row_inj above row.first
    (fun link member ↦ ⟨level_of_mem_links above e link member, row.links link member⟩)
    naturalFirst
    (fun link member ↦ ⟨level_of_mem_links above other link member, naturalLinks link member⟩)
    ends ends' same
  rw [bare_eq_join above e, bare_eq_join above other, firsts, links]
  exact ⟨rfl, rests⟩

theorem rowDetermined_of_ne (other : e.level ≠ level) (below : Determined e (level - 1)) :
    RowDetermined level e where
  first := by rwa [first_of_ne other]
  links := by
    rw [links_of_ne other]
    exact List.forall_mem_nil _

/-! ## All levels -/

/-- From a limit on the other side of the level of an expression nothing changes with the next. -/
theorem Determined.succ (natural : e.Natural) (positive : 1 ≤ limit) (other : e.level ≠ limit + 1)
    (determined : Determined e limit) : Determined e (limit + 1) := by
  obtain rfl | above := Nat.eq_or_lt_of_le positive
  · exact determined_two natural other determined
  · exact (rowDetermined_of_ne other determined).determined (Nat.succ_lt_succ above)

theorem Determined.all (natural : e.Natural) (own : Determined e e.level) (positive : 1 ≤ limit) :
    Determined e limit := by
  have up {limit : Nat} (above : e.level ≤ limit) : Determined e limit := by
    induction above with
    | refl => exact own
    | step above ih =>
      exact ih.succ natural (Nat.le_trans e.level_bounds.1 above)
        (Nat.ne_of_lt (Nat.lt_succ_of_le above))
  induction positive with
  | refl =>
    obtain same | above := Nat.eq_or_lt_of_le e.level_bounds.1
    · exact up (Nat.le_of_eq same.symm)
    · exact determined_grouped above (up e.level_bounds.2)
  | @step limit positive ih =>
    by_cases same : e.level = limit + 1
    · exact up (Nat.le_of_eq same)
    · exact ih.succ natural positive same

/-- An expression is determined at all limits, with the operands of its rows at all levels. -/
def FullyDetermined (e : Expr) : Prop :=
  (∀ limit, 1 ≤ limit → Determined e limit) ∧ ∀ level, 2 < level → RowDetermined level e

theorem fullyDetermined_of_own (natural : e.Natural) (own : Determined e e.level)
    (row : 2 < e.level → RowDetermined e.level e) : FullyDetermined e := by
  have all {limit : Nat} (positive : 1 ≤ limit) : Determined e limit := own.all natural positive
  refine ⟨fun limit positive ↦ all positive, fun level above ↦ ?_⟩
  by_cases same : e.level = level
  · subst same
    exact row above
  · exact rowDetermined_of_ne same (all (by omega))

theorem fullyDetermined_low (natural : e.Natural) (low : e.level ≤ 2)
    (own : Determined e e.level) : FullyDetermined e :=
  fullyDetermined_of_own natural own fun above ↦ absurd above (Nat.not_lt.mpr low)

theorem fullyDetermined_operator (natural : e.Natural) (found : e.operator? = some (op, l, r))
    (left : FullyDetermined l) (right : FullyDetermined r) : FullyDetermined e := by
  have above : 2 < e.level := by
    rw [level_operator found]
    exact op.level_bounds.1
  have leftRow := left.2 e.level above
  have row : RowDetermined e.level e := by
    constructor
    · rw [first_of_operator found (level_operator found).symm]
      exact leftRow.first
    · rw [links_of_operator found (level_operator found).symm, List.forall_mem_append]
      exact ⟨leftRow.links, List.forall_mem_singleton.mpr (right.1 _ (by omega))⟩
  exact fullyDetermined_of_own natural (row.determined above) fun _ ↦ row

theorem fullyDetermined (e : Expr) (natural : e.Natural) : FullyDetermined e := by
  have top : 1 ≤ topLevel := by decide
  induction e with
  | input id ty value =>
    exact fullyDetermined_low natural (Nat.le_succ 1) (determined_input id ty value)
  | const ty value =>
    exact fullyDetermined_low natural (Nat.le_succ 1)
      (determined_const ty (natural_const.mp natural))
  | unary op e ty value ih =>
    have inner := (natural_unary ..).mp natural
    cases marked : op.mark? with
    | some mark =>
      exact fullyDetermined_low natural (Nat.le_refl 2)
        (determined_mark marked ty value ((ih inner).1 2 (by decide)))
    | none =>
      exact fullyDetermined_low natural (Nat.le_refl 2)
        (determined_cast marked ty value inner ((ih inner).1 1 (Nat.le_refl 1)))
  | binary op l r ty value ihl ihr =>
    obtain ⟨left, right⟩ := natural_operator rfl natural
    exact fullyDetermined_operator natural rfl (ihl left) (ihr right)
  | compare op l r ty value ihl ihr =>
    obtain ⟨left, right⟩ := natural_operator rfl natural
    exact fullyDetermined_operator natural rfl (ihl left) (ihr right)
  | pointer op l r size value ihl ihr =>
    obtain ⟨left, right⟩ := (natural_pointer ..).mp natural
    exact fullyDetermined_low natural (Nat.le_succ 1)
      (determined_pointer op size value ((ihl left).1 _ top) ((ihr right).1 _ top))
  | slice e offset bytes value ih =>
    have inner := (natural_slice ..).mp natural
    exact fullyDetermined_low natural (Nat.le_succ 1)
      (determined_slice offset bytes value ((ih inner).1 _ top))
  | assemble ty size parts value ih =>
    have inner := (natural_assemble ..).mp natural
    exact fullyDetermined_low natural (Nat.le_succ 1)
      (determined_assemble ty size value fun part member ↦
        (ih part member (inner part member)).1 _ top)

/-- The infix text is unambiguous: expressions without negative constants have the same text exactly
if they are the same but for what the text does not show. -/
theorem text_eq_iff_bare_eq {a b : Expr} (left : a.Natural) (right : b.Natural) :
    a.text = b.text ↔ a.bare = b.bare := by
  constructor
  · intro same
    have characters : a.chars topLevel ++ [] = b.chars topLevel ++ [] :=
      congrArg (String.toList · ++ []) same
    exact ((fullyDetermined a left).1 topLevel (by decide) b [] [] right .nil .nil characters).1
  · intro same
    rw [← text_bare a, same, text_bare b]

/-- A sum that is converted and compared, with values and types as one run has them. -/
def convertedSum : Expr :=
  .compare .ult
    (.unary .signedCast (.binary .add (.input 0 .int 5) (.const .int 7) .int 12) .ulonglong 12)
    (.binary .mul (.input 1 .ulong 2) (.input 2 .ulong 8) .ulong 16) .int 1

/-- The same operations in another run, with other types of the same names. -/
def convertedSumElsewhere : Expr :=
  .compare .ult
    (.unary .unsignedCast (.binary .add (.input 0 .uint 9) (.const .uint 7) .uint 16) .ulong 16)
    (.binary .mul (.input 1 .ulonglong 0) (.input 2 .ulonglong 8) .ulonglong 0) .int 0

theorem text_eq_iff_bare_eq_converted :
    convertedSum.Natural ∧ convertedSumElsewhere.Natural ∧ convertedSum ≠ convertedSumElsewhere ∧
      convertedSum.text = "(x0 + 7) as u64 < x1 * x2" ∧
      (convertedSum.text = convertedSumElsewhere.text ↔
        convertedSum.bare = convertedSumElsewhere.bare) ∧
      convertedSum.bare = convertedSumElsewhere.bare := by
  have first : convertedSum.Natural := by simp [convertedSum]
  have second : convertedSumElsewhere.Natural := by simp [convertedSumElsewhere]
  exact ⟨first, second, by decide, by decide, text_eq_iff_bare_eq first second, by decide⟩

-- a negative constant has the text of a negated one
example : (Expr.const .int (-5)).text = (Expr.unary .negate (.const .int 5) .int (-5)).text := by
  decide

end Concolic.Expr
