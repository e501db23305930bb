import Concolic.Proofs.Expr.Checked
import Concolic.Proofs.Memory.Remains
import Concolic.Proofs.Memory.Load

/-!
# Memory with checked arithmetic

A machine adds addresses and lengths in words of 64 bits and counts the bits of slices in words of
32 bits.  The operations here give no result where a sum or a count does not fit, and none where
the plain operation faults.  A result that they give is that of the plain operation; a memory with
a layout and slices whose bits can be counted has one wherever the range does not wrap around.
-/

namespace Concolic

open Concolic.Expr (check check_eq_some countLimit)

/-- A result of the checked computation is that of the plain one. -/
def Refines {α : Type} (checked : Option α) (plain : Except Fault α) : Prop :=
  ∀ result, checked = some result → plain = .ok result

namespace Refines

variable {α β : Type} {checked other : Option α} {plain : Except Fault α}

theorem ok (result : α) : Refines (some result) (.ok result) :=
  fun _ same ↦ congrArg Except.ok (Option.some.inj same)

theorem check {holds : Bool} {next : Unit → Option α}
    (rest : holds = true → Refines (next ()) plain) :
    Refines (Expr.check holds >>= next) plain := by
  intro result made
  obtain ⟨_, passed, later⟩ := Option.bind_eq_some_iff.mp made
  exact rest (check_eq_some.mp passed) result later

theorem bind {next? : α → Option β} {next : α → Except Fault β} (first : Refines checked plain)
    (later : ∀ middle, Refines (next? middle) (next middle)) :
    Refines (checked >>= next?) (plain >>= next) := by
  intro result made
  obtain ⟨middle, here, there⟩ := Option.bind_eq_some_iff.mp made
  exact bind_eq_ok.mpr ⟨middle, first middle here, later middle result there⟩

theorem ite {condition : Prop} [Decidable condition] {otherwise : Except Fault α}
    (holds : condition → Refines checked plain) (fails : ¬condition → Refines other otherwise) :
    Refines (if condition then checked else other) (if condition then plain else otherwise) := by
  split
  · next here => exact holds here
  · next here => exact fails here

theorem foldlM {step? : β → α → Option β} {step : β → α → Except Fault β}
    (each : ∀ state item, Refines (step? state item) (step state item)) (items : List α)
    (state : β) : Refines (items.foldlM step? state) (items.foldlM step state) := by
  induction items generalizing state with
  | nil => exact .ok state
  | cons item rest ih => exact (each state item).bind ih

theorem mapM {step? : α → Option β} {step : α → Except Fault β}
    (each : ∀ item, Refines (step? item) (step item)) (items : List α) :
    Refines (items.mapM step?) (items.mapM step) := by
  induction items with
  | nil => exact .ok []
  | cons item rest ih =>
    rw [List.mapM_cons, List.mapM_cons]
    exact (each item).bind fun _ ↦ ih.bind fun _ ↦ .ok _

end Refines

/-- The checked computation has the result of the plain one. -/
def Completes {α : Type} (checked : Option α) (plain : Except Fault α) : Prop :=
  ∀ result, plain = .ok result → checked = some result

namespace Completes

variable {α β : Type} {checked other : Option α} {plain : Except Fault α}

theorem ok (result : α) : Completes (some result) (.ok result) :=
  fun _ same ↦ congrArg some (Except.ok.inj same)

theorem error (fault : Fault) : Completes checked (.error fault) :=
  nofun

theorem check {holds : Bool} {next : Unit → Option α} (passed : holds = true)
    (rest : Completes (next ()) plain) : Completes (Expr.check holds >>= next) plain := by
  rw [check_eq_some.mpr passed]
  exact rest

theorem bind {next? : α → Option β} {next : α → Except Fault β} (first : Completes checked plain)
    (later : ∀ middle, plain = .ok middle → Completes (next? middle) (next middle)) :
    Completes (checked >>= next?) (plain >>= next) := by
  intro result made
  obtain ⟨middle, here, there⟩ := bind_eq_ok.mp made
  rw [first middle here]
  exact later middle here result there

theorem ite {condition : Prop} [Decidable condition] {otherwise : Except Fault α}
    (holds : condition → Completes checked plain) (fails : ¬condition → Completes other otherwise) :
    Completes (if condition then checked else other) (if condition then plain else otherwise) := by
  split
  · next here => exact holds here
  · next here => exact fails here

theorem mapM {step? : β → Option α} {step : β → Except Fault α} {items : List β}
    (each : ∀ item ∈ items, Completes (step? item) (step item)) :
    Completes (items.mapM step?) (items.mapM step) := by
  induction items with
  | nil => exact .ok []
  | cons item rest ih =>
    obtain ⟨here, later⟩ := List.forall_mem_cons.mp each
    rw [List.mapM_cons, List.mapM_cons]
    exact here.bind fun _ _ ↦ (ih later).bind fun _ _ ↦ .ok _

end Completes

/-! ## Slices -/

namespace Expr

def mkSlice? (e : Expr) (offset bytes : BitVec 32) : Option Expr := do
  check (offset.toNat + bytes.toNat ≤ e.bytes)
  if offset = 0 ∧ bytes.toNat = e.bytes then some e
  else
    match e with
    | .slice whole start _ _ => do
      check (start.toNat + offset.toNat < countLimit)
      mkSlice? whole (start + offset) bytes
    | e => do
      check (8 * max offset.toNat bytes.toNat < countLimit)
      return .slice e offset bytes (byteRange e.value offset.toNat bytes.toNat)

theorem mkSlice?_refines (e : Expr) (offset bytes : BitVec 32) :
    Refines (e.mkSlice? offset bytes) (e.mkSlice offset bytes) := by
  induction e generalizing offset with
  | slice whole start length value ih =>
    unfold mkSlice? mkSlice
    refine .check fun inside ↦ ?_
    rw [if_neg (Nat.not_lt.mpr (of_decide_eq_true inside))]
    exact .ite (fun _ ↦ .ok _) fun _ ↦ .check fun _ ↦ ih _
  | _ =>
    unfold mkSlice? mkSlice
    refine .check fun inside ↦ ?_
    rw [if_neg (Nat.not_lt.mpr (of_decide_eq_true inside))]
    exact .ite (fun _ ↦ .ok _) fun _ ↦ .check fun _ ↦ .ok _

/-- The bits up to the last byte can be counted from the first one of the root on. -/
def Cuttable (e : Expr) : Prop :=
  8 * (e.start + e.bytes) < countLimit

instance (e : Expr) : Decidable e.Cuttable :=
  inferInstanceAs (Decidable (_ < _))

theorem cutClosed_cuttable : CutClosed Cuttable := by
  intro e offset bytes flat cuttable _ inside
  rw [Cuttable, start_cut flat.isShallow inside, bytes_cut inside]
  unfold Cuttable at cuttable
  omega

theorem mkSlice?_completes_of_not_isSlice {e : Expr} {offset bytes : BitVec 32}
    (whole : e.isSlice = false) (inside : offset.toNat + bytes.toNat ≤ e.bytes)
    (counted : 8 * (offset.toNat + bytes.toNat) < countLimit) :
    Completes (e.mkSlice? offset bytes) (e.mkSlice offset bytes) := by
  have few : 8 * max offset.toNat bytes.toNat < countLimit := by omega
  cases e with
  | slice => contradiction
  | _ =>
    unfold mkSlice? mkSlice
    rw [if_neg (Nat.not_lt.mpr inside)]
    exact .check (decide_eq_true inside) <|
      .ite (fun _ ↦ .ok _) fun _ ↦ .check (decide_eq_true few) (.ok _)

theorem mkSlice?_completes {e : Expr} (shallow : e.IsShallow) (cuttable : e.Cuttable)
    (offset bytes : BitVec 32) : Completes (e.mkSlice? offset bytes) (e.mkSlice offset bytes) := by
  unfold Cuttable at cuttable
  by_cases outside : e.bytes < offset.toNat + bytes.toNat
  · unfold mkSlice
    rw [if_pos outside]
    exact .error _
  cases e with
  | slice whole start length value =>
    obtain ⟨bottom, fits⟩ := shallow
    have bound := whole.bytes_lt
    have size : (slice whole start length value).bytes = length.toNat := rfl
    have first : (slice whole start length value).start = start.toNat := rfl
    have sum : (start + offset).toNat = start.toNat + offset.toNat := by
      rw [BitVec.toNat_add]
      exact Nat.mod_eq_of_lt (by omega)
    have near : start.toNat + offset.toNat < countLimit := by
      unfold countLimit
      omega
    unfold mkSlice? mkSlice
    rw [if_neg outside]
    exact .check (decide_eq_true (Nat.le_of_not_lt outside)) <|
      .ite (fun _ ↦ .ok _) fun _ ↦ .check (decide_eq_true near) <|
        mkSlice?_completes_of_not_isSlice bottom (by omega) (by omega)
  | _ => exact mkSlice?_completes_of_not_isSlice rfl (by omega) (by omega)

end Expr

namespace Memory

/-! ## The bindings in a range -/

/-- The bindings that the search goes through as long as they end above `address`. -/
def search? (address : Address) : List (Address × Expr) → Option (List (Address × Expr))
  | [] => some []
  | cell :: below => do
    check (cell.1.toNat + cell.2.bytes < 2 ^ 64)
    if address.toNat < cell.1.toNat + cell.2.bytes then
      return cell :: (← search? address below)
    else return []

def bindingsIn? (memory : Memory) (address : Address) (length : Nat) :
    Option (List (Address × Expr)) :=
  let past := min (address.toNat + length) lastAddress
  search? address (memory.cells.entries.filter fun cell ↦ cell.1.toNat < past).reverse

theorem search?_refines (address : Address) (cells : List (Address × Expr)) :
    Refines (search? address cells)
      (.ok (cells.takeWhile fun cell ↦ address.toNat < cell.1.toNat + cell.2.bytes)) := by
  induction cells with
  | nil => exact .ok []
  | cons cell below ih =>
    rw [search?, List.takeWhile_cons]
    refine .check fun _ ↦ ?_
    split
    · next above =>
      rw [if_pos (decide_eq_true above)]
      show Refines _ (Except.ok _ >>= fun met ↦ .ok (cell :: met))
      exact ih.bind fun _ ↦ .ok _
    · next under =>
      rw [if_neg (by simpa using under)]
      exact .ok []

theorem search?_eq_takeWhile {address : Address} {cells : List (Address × Expr)}
    (inside : ∀ cell ∈ cells, cell.1.toNat + cell.2.bytes < 2 ^ 64) :
    search? address cells =
      some (cells.takeWhile fun cell ↦ address.toNat < cell.1.toNat + cell.2.bytes) := by
  induction cells with
  | nil => rfl
  | cons cell below ih =>
    obtain ⟨here, later⟩ := List.forall_mem_cons.mp inside
    rw [search?, check_eq_some.mpr (decide_eq_true here), ih later, List.takeWhile_cons]
    split
    · next above =>
      rw [if_pos (decide_eq_true above)]
      rfl
    · next under =>
      rw [if_neg (by simpa using under)]
      rfl

theorem bindingsIn?_eq {memory : Memory} (ranges : Ranges memory.cells) (address : Address)
    (length : Nat) :
    memory.bindingsIn? address length = some (memory.bindingsIn address length) :=
  search?_eq_takeWhile fun cell member ↦
    ranges.inside cell.1 cell.2 <| (memory.cells.mem_entries_iff _ _).mp
      (List.mem_filter.mp (List.mem_reverse.mp member)).1

/-! ## Clearing -/

def keepAbove? (past : Nat) (start : Address) (e : Expr) (cells : Cells) : Option Cells := do
  let stop := start.toNat + e.bytes
  check (stop < 2 ^ 64)
  if past < stop then
    let upper ← e.mkSlice? (.ofNat 32 (past - start.toNat)) (.ofNat 32 (stop - past))
    return cells.insert (.ofNat 64 past) upper
  else return cells

def keepBelow? (address start : Address) (e : Expr) (cells : Cells) : Option Cells :=
  if start < address then do
    let lower ← e.mkSlice? 0 (.ofNat 32 (address.toNat - start.toNat))
    return cells.insert start lower
  else some cells

def clearCell? (address : Address) (length : Nat) (cells : Cells) (start : Address) :
    Option Cells :=
  match cells.get? start with
  | none => some cells
  | some e => do
    let above ← keepAbove? (address.toNat + length) start e (cells.erase start)
    keepBelow? address start e above

def concretize? (memory : Memory) (address : Address) (length : Nat) : Option Memory :=
  if length = 0 then some memory
  else do
    check (address.toNat + length < 2 ^ 64)
    let met ← memory.bindingsIn? address length
    return ⟨← (met.map Prod.fst).foldlM (clearCell? address length) memory.cells⟩

theorem keepAbove?_refines (past : Nat) (start : Address) (e : Expr) (cells : Cells) :
    Refines (keepAbove? past start e cells) (keepAbove past start e cells) :=
  .check fun _ ↦ .ite (fun _ ↦ (e.mkSlice?_refines _ _).bind fun _ ↦ .ok _) fun _ ↦ .ok _

theorem keepBelow?_refines (address start : Address) (e : Expr) (cells : Cells) :
    Refines (keepBelow? address start e cells) (keepBelow address start e cells) :=
  .ite (fun _ ↦ (e.mkSlice?_refines _ _).bind fun _ ↦ .ok _) fun _ ↦ .ok _

theorem clearCell?_refines (address : Address) (length : Nat) (cells : Cells) (start : Address) :
    Refines (clearCell? address length cells start) (clearCell address length cells start) := by
  rw [clearCell?, clearCell]
  cases cells.get? start with
  | none => exact .ok _
  | some e => exact (keepAbove?_refines _ _ _ _).bind fun _ ↦ keepBelow?_refines _ _ _ _

theorem concretize?_refines (memory : Memory) (address : Address) (length : Nat) :
    Refines (memory.concretize? address length) (memory.concretize address length) := by
  refine .ite (fun _ ↦ .ok _) fun _ ↦ .check fun _ ↦ ?_
  show Refines _ (Except.ok (memory.bindingsIn address length) >>= fun met ↦ do
    return Memory.mk (← (met.map Prod.fst).foldlM (clearCell address length) memory.cells))
  exact (search?_refines _ _).bind fun met ↦
    (Refines.foldlM (clearCell?_refines address length) _ _).bind fun _ ↦ .ok _

section Clear

variable {cells : Cells} {address start : Address} {length : Nat} {e : Expr}

theorem clearCell?_completes (layout : Layout cells) (cuttable : AllCells Expr.Cuttable cells)
    (address : Address) (length : Nat) (start : Address) :
    Completes (clearCell? address length cells start) (clearCell address length cells start) := by
  rw [clearCell?, clearCell]
  cases found : cells.get? start with
  | none => exact .ok _
  | some e =>
    have shallow := (layout.flat start e found).isShallow
    have cut := Expr.mkSlice?_completes shallow (cuttable start e found)
    have upper : Completes (keepAbove? (address.toNat + length) start e (cells.erase start))
        (keepAbove (address.toNat + length) start e (cells.erase start)) :=
      .check (decide_eq_true (layout.inside start e found)) <|
        .ite (fun _ ↦ (cut _ _).bind fun _ _ ↦ .ok _) fun _ ↦ .ok _
    exact upper.bind fun above _ ↦ .ite (fun _ ↦ (cut _ _).bind fun _ _ ↦ .ok _) fun _ ↦ .ok _

theorem clearCells?_completes {starts : List Address} (distinct : starts.Nodup)
    (layout : Layout cells) (cuttable : AllCells Expr.Cuttable cells)
    (meet : ∀ start ∈ starts, ∃ e, cells.get? start = some e ∧
      Meets address.toNat (address.toNat + length) start e) :
    Completes (starts.foldlM (clearCell? address length) cells)
      (starts.foldlM (clearCell address length) cells) := by
  induction starts generalizing cells with
  | nil => exact .ok _
  | cons start rest ih =>
    obtain ⟨fresh, others⟩ := List.nodup_cons.mp distinct
    obtain ⟨e, found, meets⟩ := meet start (by simp)
    obtain ⟨middle, ran, clears, untouched⟩ := clearCell_spec layout found meets
    rw [List.foldlM_cons, List.foldlM_cons]
    refine (clearCell?_completes layout cuttable address length start).bind fun reached here ↦ ?_
    obtain rfl : middle = reached := Except.ok.inj (ran.symm.trans here)
    refine ih others clears.layout (clears.all _ Expr.cutClosed_cuttable cuttable)
      fun other member ↦ ?_
    obtain ⟨f, present, below, above⟩ := meet other (by simp [member])
    exact ⟨f, (untouched other (fun same ↦ fresh (same ▸ member)) below).trans present, below,
      above⟩

end Clear

section Fits

variable {memory : Memory} (layout : Layout memory.cells)
  (cuttable : AllCells Expr.Cuttable memory.cells) {address : Address}

include layout cuttable

/-- Checked arithmetic clears a range that does not wrap around. -/
theorem concretize?_completes {length : Nat} (inside : address.toNat + length < 2 ^ 64) :
    Completes (memory.concretize? address length) (memory.concretize address length) := by
  refine .ite (fun _ ↦ .ok _) fun _ ↦ .check (decide_eq_true inside) ?_
  rw [bindingsIn?_eq layout.ranges]
  exact (clearCells?_completes (nodup_starts memory address length) layout cuttable
    fun _ ↦ of_mem_starts).bind fun _ _ ↦ .ok _

end Fits

/-! ## Storing -/

def scatter? (cells : Cells) (address : Address) (parts : List (BitVec 32 × Expr)) :
    Option Cells :=
  parts.foldlM (fun cells part ↦ do
    check (address.toNat + part.1.toNat < 2 ^ 64)
    return cells.insert (address + part.1.setWidth 64) part.2) cells

def write? (memory : Memory) (address : Address) (ty : CType) (e : Expr) : Option Memory :=
  if ty.isStruct then do
    let cleared ← memory.concretize? address e.bytes
    match e with
    | .assemble _ _ parts _ => return ⟨← scatter? cleared.cells address parts⟩
    | e => return ⟨cleared.cells.insert address e⟩
  else if e.bytes = ty.size then do
    let cleared ← memory.concretize? address ty.size
    return ⟨cleared.cells.insert address e⟩
  else none

def store? (memory : Memory) (address : Address) (operand : Operand) : Option Memory :=
  match operand with
  | .concrete typed => memory.concretize? address typed.bytes
  | .symbolic e =>
    if e.isConcrete then memory.concretize? address e.bytes
    else memory.write? address e.ty e

theorem scatter?_refines (cells : Cells) (address : Address) (parts : List (BitVec 32 × Expr)) :
    Refines (scatter? cells address parts) (.ok (scatter cells address parts)) := by
  induction parts generalizing cells with
  | nil => exact .ok _
  | cons part rest ih =>
    rw [scatter?, List.foldlM_cons, bind_assoc]
    exact .check fun _ ↦ ih _

theorem write?_refines (memory : Memory) (address : Address) (ty : CType) (e : Expr) :
    Refines (memory.write? address ty e) (memory.write address ty e) := by
  refine .ite (fun _ ↦ ?_) fun _ ↦ .ite (fun _ ↦ ?_) fun _ ↦ nofun
  · refine (concretize?_refines _ _ _).bind fun cleared ↦ ?_
    cases e with
    | assemble aggregate size parts value =>
      show Refines _ (Except.ok (scatter cleared.cells address parts) >>= fun cells ↦
        .ok (Memory.mk cells))
      exact (scatter?_refines _ _ _).bind fun _ ↦ .ok _
    | _ => exact .ok _
  · exact (concretize?_refines _ _ _).bind fun _ ↦ .ok _

/-- What checked arithmetic stores is what is stored. -/
theorem store?_refines (memory : Memory) (address : Address) (operand : Operand) :
    Refines (memory.store? address operand) (memory.store address operand) := by
  cases operand with
  | concrete typed => exact concretize?_refines _ _ _
  | symbolic e => exact .ite (fun _ ↦ concretize?_refines _ _ _) fun _ ↦ write?_refines _ _ _ _

theorem scatter?_completes {address : Address} {parts : List (BitVec 32 × Expr)}
    (inside : ∀ part ∈ parts, address.toNat + part.1.toNat < 2 ^ 64) (cells : Cells) :
    Completes (scatter? cells address parts) (.ok (scatter cells address parts)) := by
  induction parts generalizing cells with
  | nil => exact .ok _
  | cons part rest ih =>
    obtain ⟨here, later⟩ := List.forall_mem_cons.mp inside
    rw [scatter?, List.foldlM_cons, bind_assoc]
    exact .check (decide_eq_true here) (ih later _)

section Fits

variable {memory : Memory} (layout : Layout memory.cells)
  (cuttable : AllCells Expr.Cuttable memory.cells) {address : Address} {e : Expr}

include layout cuttable

/-- Checked arithmetic binds what fits without wrapping around, with all its parts. -/
theorem write?_completes (inside : address.toNat + e.bytes < 2 ^ 64)
    (places : ∀ size parts value, e = .assemble .struct size parts value →
      ∀ part ∈ parts, part.1.toNat ≤ size.toNat) :
    Completes (memory.write? address e.ty e) (memory.write address e.ty e) := by
  refine .ite (fun struct ↦ ?_) fun _ ↦ .ite (fun sized ↦ ?_) fun _ ↦ .error _
  · refine (concretize?_completes layout cuttable inside).bind fun cleared _ ↦ ?_
    cases e with
    | assemble aggregate size parts value =>
      obtain rfl : aggregate = .struct := by
        cases aggregate <;> first | rfl | contradiction
      have near (part : BitVec 32 × Expr) (member : part ∈ parts) :
          address.toNat + part.1.toNat < 2 ^ 64 :=
        Nat.lt_of_le_of_lt (Nat.add_le_add_left (places _ _ _ rfl part member) _) inside
      show Completes _ (Except.ok (scatter cleared.cells address parts) >>= fun cells ↦
        .ok (Memory.mk cells))
      exact (scatter?_completes near cleared.cells).bind fun _ _ ↦ .ok _
    | _ => exact .ok _
  · exact (concretize?_completes layout cuttable (sized ▸ inside)).bind fun _ _ ↦ .ok _

end Fits

/-! ## Reading -/

def clip? (address : Address) (length : Nat) (cell : Address × Expr) :
    Option (BitVec 32 × Expr) := do
  let first := max cell.1.toNat address.toNat
  let past := min (cell.1.toNat + cell.2.bytes) (address.toNat + length)
  let part ← cell.2.mkSlice? (.ofNat 32 (first - cell.1.toNat)) (.ofNat 32 (past - first))
  return (.ofNat 32 (first - address.toNat), part)

def read? (memory : Memory) (address : Address) (ty : CType) (value : Value) : Option Operand :=
  let observed := TypedValue.of ty value
  if observed.bytes = 0 then some (.concrete observed)
  else do
    let cells ← memory.bindingsIn? address observed.bytes
    if cells.isEmpty then return .concrete observed
    else
      check (address.toNat + observed.bytes < 2 ^ 64)
      let parts ← cells.reverse.mapM (clip? address observed.bytes)
      return combine observed <|
        if ty.isStruct then parts else parts.filter (isFresh observed.value)

theorem clip?_refines (address : Address) (length : Nat) (cell : Address × Expr) :
    Refines (clip? address length cell) (clip address length cell) :=
  (cell.2.mkSlice?_refines _ _).bind fun _ ↦ .ok _

/-- A read is made of the bindings in the range. -/
theorem read_eq (memory : Memory) (address : Address) (ty : CType) (value : Value) :
    memory.read address ty value =
      if (TypedValue.of ty value).bytes = 0 then .ok (.concrete (.of ty value))
      else
        let cells := memory.bindingsIn address (TypedValue.of ty value).bytes
        if cells.isEmpty then .ok (.concrete (.of ty value))
        else do
          let parts ← cells.reverse.mapM (clip address (TypedValue.of ty value).bytes)
          return combine (.of ty value) <|
            if ty.isStruct then parts
            else parts.filter (isFresh (TypedValue.of ty value).value) := by
  rw [read]
  simp only [readReporting]
  split
  · rfl
  · split
    · rfl
    · rw [map_bind]
      refine bind_congr fun parts ↦ ?_
      split <;> rfl

/-- What checked arithmetic reads is what is read. -/
theorem read?_refines (memory : Memory) (address : Address) (ty : CType) (value : Value) :
    Refines (memory.read? address ty value) (memory.read address ty value) := by
  rw [read_eq]
  refine .ite (fun _ ↦ .ok _) fun _ ↦ ?_
  show Refines _ (Except.ok (memory.bindingsIn address (TypedValue.of ty value).bytes) >>=
    fun cells ↦
      if cells.isEmpty then .ok (.concrete (.of ty value))
      else do
        let parts ← cells.reverse.mapM (clip address (TypedValue.of ty value).bytes)
        return combine (.of ty value) <|
          if ty.isStruct then parts else parts.filter (isFresh (TypedValue.of ty value).value))
  refine (search?_refines _ _).bind fun cells ↦ .ite (fun _ ↦ .ok _) fun _ ↦ .check fun _ ↦ ?_
  exact (Refines.mapM (clip?_refines address _) _).bind fun _ ↦ .ok _

/-- Checked arithmetic reads a range that does not wrap around. -/
theorem read?_completes {memory : Memory} (ranges : Ranges memory.cells)
    (shallow : AllCells Expr.IsShallow memory.cells)
    (cuttable : AllCells Expr.Cuttable memory.cells) {address : Address} {ty : CType}
    {value : Value} (inside : address.toNat + (TypedValue.of ty value).bytes < 2 ^ 64) :
    Completes (memory.read? address ty value) (memory.read address ty value) := by
  rw [read_eq]
  refine .ite (fun _ ↦ .ok _) fun _ ↦ ?_
  rw [bindingsIn?_eq ranges]
  refine .ite (fun _ ↦ .ok _) fun _ ↦ .check (decide_eq_true inside) ?_
  refine Completes.bind (.mapM fun cell member ↦ ?_) fun _ _ ↦ .ok _
  have found := (of_mem_bindingsIn (List.mem_reverse.mp member)).1
  exact (Expr.mkSlice?_completes (shallow _ _ found) (cuttable _ _ found) _ _).bind fun _ _ ↦ .ok _

end Memory

end Concolic
