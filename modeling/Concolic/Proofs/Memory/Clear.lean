import Concolic.Proofs.Memory.Layout

/-!
# Clearing a range of memory

The search from the top of a range finds exactly the bindings that meet it.  Taking a range away
from them never fails, frees the bytes of the range and leaves the origin of every other byte as it
was; what is bound afterwards was bound before or is cut from it.
-/

namespace Concolic

/-- A binding has bytes in the range. -/
def Meets (first past : Nat) (start : Address) (e : Expr) : Prop :=
  start.toNat < past ∧ first < start.toNat + e.bytes

instance (first past : Nat) (start : Address) (e : Expr) : Decidable (Meets first past start e) :=
  inferInstanceAs (Decidable (_ ∧ _))

/-- A binding that meets a range has a byte in it. -/
theorem Meets.exists_byte {first past : Nat} {start : Address} {e : Expr}
    (meets : Meets first past start e) (nonempty : 0 < e.bytes) (some_bytes : first < past) :
    ∃ byte, InRange first past byte ∧ Spans start e byte := by
  refine ⟨max first start.toNat, ?_⟩
  unfold Meets at meets
  unfold InRange Spans
  omega

theorem meets_of_byte {first past byte : Nat} {start : Address} {e : Expr}
    (range : InRange first past byte) (spans : Spans start e byte) : Meets first past start e := by
  unfold InRange at range
  unfold Spans at spans
  unfold Meets
  omega

/-- All bound expressions have the property. -/
def AllCells (P : Expr → Prop) (cells : Cells) : Prop :=
  ∀ start e, cells.get? start = some e → P e

instance (P : Expr → Prop) [DecidablePred P] (cells : Cells) : Decidable (AllCells P cells) :=
  decidable_of_iff (∀ cell ∈ cells.entries, P cell.2)
    ⟨fun all start e found ↦ all (start, e) ((cells.mem_entries_iff start e).mpr found),
      fun all cell member ↦ all cell.1 cell.2 ((cells.mem_entries_iff _ _).mp member)⟩

theorem AllCells.insert {P : Expr → Prop} {cells : Cells} {address : Address} {e : Expr}
    (all : AllCells P cells) (here : P e) : AllCells P (cells.insert address e) := by
  intro other f found
  rw [WordMap.get?_insert] at found
  split at found
  · cases found
    exact here
  · exact all other f found

theorem AllCells.erase {P : Expr → Prop} {cells : Cells} (all : AllCells P cells)
    (address : Address) : AllCells P (cells.erase address) := by
  intro other f found
  rw [WordMap.get?_erase] at found
  split at found
  · contradiction
  · exact all other f found

theorem Layout.shallow {cells : Cells} (layout : Layout cells) :
    AllCells Expr.IsShallow cells :=
  fun start e found ↦ (layout.flat start e found).isShallow

instance (cells : Cells) : Decidable (Layout cells) :=
  decidable_of_iff (Ranges cells ∧ AllCells Expr.IsFlat cells)
    ⟨fun ⟨ranges, flat⟩ ↦ ⟨ranges, flat⟩, fun layout ↦ ⟨layout.ranges, layout.flat⟩⟩

/-- The property passes from an expression to what is cut from it. -/
def CutClosed (P : Expr → Prop) : Prop :=
  ∀ e offset bytes, e.IsFlat → P e → 0 < bytes → offset + bytes ≤ e.bytes → P (e.cut offset bytes)

/-! ## The bindings that meet a range -/

theorem takeWhile_eq_filter {α : Type} {keep : α → Bool} {items : List α}
    (closed : items.Pairwise fun a b ↦ keep b = true → keep a = true) :
    items.takeWhile keep = items.filter keep := by
  induction items with
  | nil => rfl
  | cons item rest ih =>
    obtain ⟨first, later⟩ := List.pairwise_cons.mp closed
    cases here : keep item with
    | true => rw [List.takeWhile_cons, List.filter_cons, if_pos here, if_pos here, ih later]
    | false =>
      have none : rest.filter keep = [] := by
        rw [List.filter_eq_nil_iff]
        intro other member kept
        rw [first other member kept] at here
        contradiction
      rw [List.takeWhile_cons, List.filter_cons, here, none]
      rfl

/-- The search finds exactly the bindings that meet the range, highest first. -/
theorem Memory.bindingsIn_eq_filter {memory : Memory} (ranges : Ranges memory.cells)
    (address : Address) (length : Nat) :
    memory.bindingsIn address length =
      (memory.cells.entries.filter fun cell ↦
        decide (Meets address.toNat (address.toNat + length) cell.1 cell.2)).reverse := by
  have bound {cell : Address × Expr} (member : cell ∈ memory.cells.entries) :
      memory.cells.get? cell.1 = some cell.2 := (memory.cells.mem_entries_iff _ _).mp member
  have descending : (memory.cells.entries.filter fun cell ↦
      decide (cell.1.toNat < min (address.toNat + length) lastAddress)).reverse.Pairwise
      fun a b ↦ decide (address.toNat < b.1.toNat + b.2.bytes) = true →
        decide (address.toNat < a.1.toNat + a.2.bytes) = true := by
    rw [List.pairwise_reverse]
    refine (memory.cells.ascending.imp_of_mem ?_).filter _
    intro a b memberA memberB below
    have apart := ranges.apart _ _ _ _ (bound memberA) (bound memberB) (BitVec.lt_def.mp below)
    simp only [decide_eq_true_eq]
    omega
  rw [bindingsIn, takeWhile_eq_filter descending, List.filter_reverse, List.filter_filter]
  congr 1
  refine List.filter_congr fun cell member ↦ ?_
  have inside := ranges.inside _ _ (bound member)
  have nonempty := ranges.nonempty _ _ (bound member)
  rw [Bool.eq_iff_iff, Bool.and_eq_true, decide_eq_true_iff, decide_eq_true_iff,
    decide_eq_true_iff, Meets, lastAddress]
  omega

/-! ## Keeping a part of a binding -/

section Keep

variable {cells : Cells} {start : Address} {e : Expr} {first past : Nat}

/-- Binds the bytes from `first` up to `past` of an expression that was bound to `start`. -/
def keep (cells : Cells) (start : Address) (e : Expr) (first past : Nat) : Cells :=
  if first < past then
    cells.insert (.ofNat 64 first) (e.cut (first - start.toNat) (past - first))
  else cells

/-- The bytes from `first` up to `past` are bytes of the expression. -/
structure Within (start : Address) (e : Expr) (first past : Nat) : Prop where
  flat : e.IsFlat
  inside : start.toNat + e.bytes < 2 ^ 64
  low : start.toNat ≤ first
  high : past ≤ start.toNat + e.bytes

theorem Within.fits (within : Within start e first past) (some_bytes : first < past) :
    Layout.Fits (.ofNat 64 first) (e.cut (first - start.toNat) (past - first)) ∧
      (BitVec.ofNat 64 first).toNat = first ∧
      (e.cut (first - start.toNat) (past - first)).bytes = past - first := by
  obtain ⟨flat, inside, low, high⟩ := within
  have place : (BitVec.ofNat 64 first).toNat = first := Nat.mod_eq_of_lt (by omega)
  have range : first - start.toNat + (past - first) ≤ e.bytes := by omega
  have size := Expr.bytes_cut range
  refine ⟨⟨Expr.isFlat_cut flat range, by omega, by omega⟩, place, size⟩

theorem keep_layout (layout : Layout cells) (within : Within start e first past)
    (free : ∀ byte, InRange first past byte → cells.origin? byte = none) :
    Layout (keep cells start e first past) ∧
      ∀ byte, Cells.origin? (keep cells start e first past) byte =
        if InRange first past byte then some (e.origin (byte - start.toNat))
        else cells.origin? byte := by
  unfold keep
  split
  · next some_bytes =>
    obtain ⟨fits, place, size⟩ := within.fits some_bytes
    have spans (byte : Nat) :
        Spans (.ofNat 64 first) (e.cut (first - start.toNat) (past - first)) byte ↔
          InRange first past byte := by
      rw [Spans, InRange, place, size]
      omega
    have open_range : Layout.Free cells (.ofNat 64 first)
        (e.cut (first - start.toNat) (past - first)) := fun byte covers ↦
      free byte ((spans byte).mp covers)
    refine ⟨layout.insert fits open_range, fun byte ↦ ?_⟩
    rw [layout.origin?_insert fits open_range]
    by_cases here : InRange first past byte
    · have low := within.low
      have high := within.high
      rw [if_pos ((spans byte).mpr here), if_pos here, place,
        Expr.origin_cut within.flat (by omega)]
      have sum : first - start.toNat + (byte - first) = byte - start.toNat := by
        have := here.1
        omega
      rw [sum]
    · rw [if_neg (fun covers ↦ here ((spans byte).mp covers)), if_neg here]
  · next none =>
    refine ⟨layout, fun byte ↦ (if_neg fun range ↦ ?_).symm⟩
    unfold InRange at range
    omega

theorem keep_get? (within : Within start e first past) {other : Address}
    (elsewhere : other.toNat ≠ first) :
    (keep cells start e first past).get? other = cells.get? other := by
  unfold keep
  split
  · next some_bytes =>
    obtain ⟨-, place, -⟩ := within.fits some_bytes
    rw [WordMap.get?_insert, if_neg]
    rintro rfl
    exact elsewhere place
  · rfl

theorem keep_allCells {P : Expr → Prop} (closed : CutClosed P) (all : AllCells P cells)
    (within : Within start e first past) (here : P e) :
    AllCells P (keep cells start e first past) := by
  unfold keep
  split
  · next some_bytes =>
    intro other f found
    rw [WordMap.get?_insert] at found
    split at found
    · cases found
      have low := within.low
      have high := within.high
      exact closed e _ _ within.flat here (by omega) (by omega)
    · exact all other f found
  · exact all

end Keep

/-! ## Clearing -/

namespace Memory

variable {cells : Cells} {address start : Address} {length : Nat} {e : Expr}

theorem keepAbove_eq_keep (cells : Cells) {past : Nat} (flat : e.IsFlat)
    (below : start.toNat < past) :
    keepAbove past start e cells = .ok (keep cells start e past (start.toNat + e.bytes)) := by
  have size := e.bytes_lt
  simp only [keepAbove, keep]
  split
  · next some_bytes =>
    have first : (BitVec.ofNat 32 (past - start.toNat)).toNat = past - start.toNat :=
      Nat.mod_eq_of_lt (by omega)
    have count : (BitVec.ofNat 32 (start.toNat + e.bytes - past)).toNat =
        start.toNat + e.bytes - past := Nat.mod_eq_of_lt (by omega)
    rw [Expr.mkSlice_eq_cut flat.isShallow _ _ (by omega), first, count]
    rfl
  · rfl

theorem keepBelow_eq_keep (cells : Cells) (flat : e.IsFlat)
    (above : address.toNat < start.toNat + e.bytes) :
    keepBelow address start e cells =
      .ok (keep cells start e start.toNat address.toNat) := by
  have size := e.bytes_lt
  unfold keepBelow keep
  simp only [BitVec.lt_def]
  split
  · next some_bytes =>
    have count : (BitVec.ofNat 32 (address.toNat - start.toNat)).toNat =
        address.toNat - start.toNat := Nat.mod_eq_of_lt (by omega)
    have zero : (0 : BitVec 32).toNat = 0 := rfl
    rw [Expr.mkSlice_eq_cut flat.isShallow _ _ (by omega), count, zero, Nat.sub_self,
      BitVec.ofNat_toNat, BitVec.setWidth_eq]
    rfl
  · rfl

/-- The range is cleared where it is covered by what is `gone`; all other bytes keep their
origins. -/
structure Clears (first past : Nat) (gone : Nat → Prop) (cells after : Cells) : Prop where
  layout : Layout after
  freed : ∀ byte, InRange first past byte → gone byte → after.origin? byte = none
  kept : ∀ byte, ¬(InRange first past byte ∧ gone byte) →
    after.origin? byte = cells.origin? byte
  all : ∀ P, CutClosed P → AllCells P cells → AllCells P after

/-- One binding loses the bytes of the range and keeps the others. -/
theorem clearCell_spec (layout : Layout cells) (found : cells.get? start = some e)
    (meets : Meets address.toNat (address.toNat + length) start e) :
    ∃ after, clearCell address length cells start = .ok after ∧
      Clears address.toNat (address.toNat + length) (Spans start e) cells after ∧
      ∀ other, other ≠ start → other.toNat < address.toNat + length →
        after.get? other = cells.get? other := by
  obtain ⟨below, above⟩ := meets
  have flat := layout.flat _ _ found
  have inside := layout.inside _ _ found
  have erased := layout.erase start
  have freed := layout.origin?_erase found
  have upper : Within start e (address.toNat + length) (start.toNat + e.bytes) :=
    ⟨flat, inside, by omega, by omega⟩
  have lower : Within start e start.toNat address.toNat :=
    ⟨flat, inside, by omega, by omega⟩
  let top := keep (cells.erase start) start e (address.toNat + length) (start.toNat + e.bytes)
  obtain ⟨layoutTop, originTop⟩ := keep_layout erased upper fun byte range ↦ by
    rw [freed, if_pos]
    unfold InRange at range
    unfold Spans
    omega
  obtain ⟨layoutAll, originAll⟩ := keep_layout layoutTop lower fun byte range ↦ by
    unfold InRange at range
    rw [originTop, if_neg (by unfold InRange; omega), freed, if_pos (by unfold Spans; omega)]
  refine ⟨keep top start e start.toNat address.toNat, ?_, ⟨layoutAll, ?_, ?_, ?_⟩, ?_⟩
  · rw [clearCell, found]
    simp only [keepAbove_eq_keep _ flat below]
    exact keepBelow_eq_keep top flat above
  · intro byte range spans
    unfold InRange at range
    rw [originAll, if_neg (by unfold InRange; omega), originTop, if_neg (by unfold InRange; omega),
      freed, if_pos spans]
  · intro byte outside
    rw [originAll, originTop, freed]
    by_cases spans : Spans start e byte
    · rw [layout.origin?_of_spans found spans, if_pos spans]
      unfold Spans at spans
      by_cases low : InRange start.toNat address.toNat byte
      · rw [if_pos low]
      · rw [if_neg low, if_pos]
        unfold InRange at low outside ⊢
        unfold Spans at outside
        omega
    · rw [if_neg spans, if_neg, if_neg] <;> (unfold InRange; unfold Spans at spans; omega)
  · intro P closed all
    have here : P e := all start e found
    refine keep_allCells closed (keep_allCells closed ?_ upper here) lower here
    intro other f present
    rw [WordMap.get?_erase] at present
    split at present
    · contradiction
    · exact all other f present
  · intro other different reached
    have notStart : other.toNat ≠ start.toNat := fun same ↦ different (BitVec.eq_of_toNat_eq same)
    rw [keep_get? lower notStart, keep_get? upper (by omega), WordMap.get?_erase, if_neg different]

/-- Every binding in a list of starts loses the bytes of the range. -/
theorem clearCells_spec (starts : List Address) (distinct : starts.Nodup) (layout : Layout cells)
    (address : Address) (length : Nat) (meet : ∀ start ∈ starts, ∃ e, cells.get? start = some e ∧
      Meets address.toNat (address.toNat + length) start e) :
    ∃ after, starts.foldlM (clearCell address length) cells = .ok after ∧
      Clears address.toNat (address.toNat + length)
        (fun byte ↦ ∃ start ∈ starts, ∃ e, cells.get? start = some e ∧ Spans start e byte)
        cells after := by
  induction starts generalizing cells with
  | nil =>
    refine ⟨cells, rfl, layout, ?_, fun _ _ ↦ rfl, fun _ _ all ↦ all⟩
    rintro byte range ⟨start, member, -⟩
    simp at member
  | cons start rest ih =>
    obtain ⟨fresh, others⟩ := List.nodup_cons.mp distinct
    obtain ⟨e, found, meets⟩ := meet start (by simp)
    obtain ⟨middle, ran, first, untouched⟩ := clearCell_spec layout found meets
    have later (other : Address) (member : other ∈ rest) :
        middle.get? other = cells.get? other := by
      obtain ⟨f, -, reached, -⟩ := meet other (by simp [member])
      exact untouched other (fun same ↦ fresh (same ▸ member)) reached
    obtain ⟨after, ranRest, second⟩ := ih others first.layout fun other member ↦ by
      rw [later other member]
      exact meet other (by simp [member])
    refine ⟨after, ?_, second.layout, ?_, ?_, fun P closed all ↦
      second.all P closed (first.all P closed all)⟩
    · rw [List.foldlM_cons, ran]
      exact ranRest
    · rintro byte range ⟨other, member, f, present, spans⟩
      by_cases again : ∃ start ∈ rest, ∃ e, middle.get? start = some e ∧ Spans start e byte
      · exact second.freed byte range again
      · rw [second.kept byte fun both ↦ again both.2]
        rcases List.mem_cons.mp member with rfl | inRest
        · rw [found] at present
          cases present
          exact first.freed byte range spans
        · exact absurd ⟨other, inRest, f, (later other inRest).trans present, spans⟩ again
    · intro byte outside
      rw [second.kept, first.kept]
      · exact fun ⟨range, spans⟩ ↦ outside ⟨range, start, by simp, e, found, spans⟩
      · rintro ⟨range, other, member, f, present, spans⟩
        rw [later other member] at present
        exact outside ⟨range, other, by simp [member], f, present, spans⟩

/-- The search from the top of a range finds only bindings that meet it, however they lie. -/
theorem of_mem_bindingsIn {memory : Memory} {address start : Address} {length : Nat} {e : Expr}
    (member : (start, e) ∈ memory.bindingsIn address length) :
    memory.cells.get? start = some e ∧
      Meets address.toNat (address.toNat + length) start e := by
  have above := List.all_eq_true.mp List.all_takeWhile (start, e) member
  obtain ⟨present, below⟩ :=
    List.mem_filter.mp (List.mem_reverse.mp (List.takeWhile_subset _ member))
  refine ⟨(memory.cells.mem_entries_iff start e).mp present, ?_, of_decide_eq_true above⟩
  have first : start.toNat < min (address.toNat + length) lastAddress := of_decide_eq_true below
  omega

theorem mem_bindingsIn {memory : Memory} (ranges : Ranges memory.cells) (address : Address)
    (length : Nat) (start : Address) (e : Expr) :
    (start, e) ∈ memory.bindingsIn address length ↔
      memory.cells.get? start = some e ∧
        Meets address.toNat (address.toNat + length) start e := by
  rw [bindingsIn_eq_filter ranges, List.mem_reverse, List.mem_filter, decide_eq_true_iff,
    WordMap.mem_entries_iff]

/-- The starts that the search finds are those of bindings that meet the range. -/
theorem of_mem_starts {memory : Memory} {address start : Address} {length : Nat}
    (member : start ∈ (memory.bindingsIn address length).map Prod.fst) :
    ∃ e, memory.cells.get? start = some e ∧
      Meets address.toNat (address.toNat + length) start e := by
  obtain ⟨⟨first, e⟩, here, rfl⟩ := List.mem_map.mp member
  exact ⟨e, of_mem_bindingsIn here⟩

theorem mem_starts {memory : Memory} (ranges : Ranges memory.cells) {address start : Address}
    {length : Nat} {e : Expr} (found : memory.cells.get? start = some e)
    (meets : Meets address.toNat (address.toNat + length) start e) :
    start ∈ (memory.bindingsIn address length).map Prod.fst :=
  List.mem_map.mpr ⟨(start, e), (mem_bindingsIn ranges ..).mpr ⟨found, meets⟩, rfl⟩

/-- A range is symbolic where a binding covers one of its bytes. -/
theorem isSymbolic_iff {memory : Memory} (layout : Layout memory.cells) (address : Address)
    {length : Nat} (some_bytes : 0 < length) :
    memory.isSymbolic address length = true ↔ ∃ start e byte, memory.get? start = some e ∧
      InRange address.toNat (address.toNat + length) byte ∧ Spans start e byte := by
  have found : memory.isSymbolic address length = true ↔
      ∃ start e, (start, e) ∈ memory.bindingsIn address length := by
    have some_length : (length != 0) = true := bne_iff_ne.mpr (by omega)
    rw [isSymbolic, some_length, Bool.true_and, Bool.not_eq_true',
      List.isEmpty_eq_false_iff_exists_mem]
    exact Prod.exists
  rw [found]
  constructor
  · rintro ⟨start, e, member⟩
    obtain ⟨bound, meets⟩ := of_mem_bindingsIn member
    obtain ⟨byte, range, spans⟩ :=
      meets.exists_byte (layout.nonempty start e bound) (by omega)
    exact ⟨start, e, byte, bound, range, spans⟩
  · rintro ⟨start, e, byte, bound, range, spans⟩
    exact ⟨start, e, (mem_bindingsIn layout.ranges ..).mpr ⟨bound, meets_of_byte range spans⟩⟩

theorem nodup_starts (memory : Memory) (address : Address) (length : Nat) :
    ((memory.bindingsIn address length).map Prod.fst).Nodup := by
  have descending := List.pairwise_reverse.mpr <| memory.cells.ascending.filter fun cell ↦
    decide (cell.1.toNat < min (address.toNat + length) lastAddress)
  refine List.pairwise_map.mpr <|
    (descending.sublist (List.takeWhile_sublist _)).imp fun below same ↦ ?_
  rw [same] at below
  exact BitVec.lt_irrefl _ below

/-- The range is free, all other bytes have their origins. -/
structure Cleared (first past : Nat) (cells after : Cells) : Prop where
  layout : Layout after
  freed : ∀ byte, InRange first past byte → after.origin? byte = none
  kept : ∀ byte, ¬InRange first past byte → after.origin? byte = cells.origin? byte
  all : ∀ P, CutClosed P → AllCells P cells → AllCells P after

/-- Clearing a range never fails, frees its bytes and leaves all others as they were. -/
theorem concretize_spec {memory : Memory} (layout : Layout memory.cells) (address : Address)
    (length : Nat) :
    ∃ after, memory.concretize address length = .ok after ∧
      Cleared address.toNat (address.toNat + length) memory.cells after.cells := by
  unfold concretize
  split
  · next none =>
    refine ⟨memory, rfl, layout, fun byte range ↦ ?_, fun _ _ ↦ rfl, fun _ _ all ↦ all⟩
    unfold InRange at range
    omega
  · obtain ⟨after, ran, clears⟩ := clearCells_spec ((memory.bindingsIn address length).map Prod.fst)
      (nodup_starts memory address length) layout address length fun _ ↦ of_mem_starts
    refine ⟨⟨after⟩, ?_, clears.layout, fun byte range ↦ ?_, fun byte outside ↦ ?_, clears.all⟩
    · simp only [ran]
      rfl
    · cases here : Cells.origin? memory.cells byte with
      | none =>
        by_cases gone : ∃ start ∈ (memory.bindingsIn address length).map Prod.fst,
            ∃ e, memory.cells.get? start = some e ∧ Spans start e byte
        · exact clears.freed byte range gone
        · rw [clears.kept byte fun both ↦ gone both.2, here]
      | some origin =>
        obtain ⟨start, e, found, spans, -⟩ := Layout.exists_of_origin? here
        have member := mem_starts layout.ranges found (meets_of_byte range spans)
        exact clears.freed byte range ⟨start, member, e, found, spans⟩
    · exact clears.kept byte fun both ↦ outside both.1

end Memory

end Concolic
