import Mathlib.Data.List.Sort
import Concolic.Proofs.Memory.Checked

/-!
# Clearing many ranges

Whatever ranges are cleared, and in whatever order, the bindings afterwards are the longest
stretches of the bindings before that keep clear of all of them, each cut out of its binding in one
go.  There is only one such memory, so that clearing depends on nothing but which bytes are covered.
-/

namespace Concolic

/-- A map is what is found in it. -/
theorem WordMap.ext_get? {width : Nat} {α : Type} {a b : WordMap width α}
    (equal : ∀ key value, a.get? key = some value ↔ b.get? key = some value) : a = b := by
  refine ext_entries <| a.ascending.eq_of_mem_iff b.ascending fun ⟨key, value⟩ ↦ ?_
  rw [mem_entries_iff, mem_entries_iff, equal]

/-- A longest run of bytes of the binding at `start` none of which is gone, bound to where it
begins. -/
structure Stretch (gone : Nat → Prop) (start : Address) (e : Expr) (place : Address)
    (part : Expr) : Prop where
  nonempty : 0 < part.bytes
  low : start.toNat ≤ place.toNat
  high : place.toNat + part.bytes ≤ start.toNat + e.bytes
  kept : ∀ byte, Spans place part byte → ¬gone byte
  left : place = start ∨ gone (place.toNat - 1)
  right : place.toNat + part.bytes = start.toNat + e.bytes ∨ gone (place.toNat + part.bytes)
  cut : part = e.cut (place.toNat - start.toNat) part.bytes

namespace Stretch

variable {gone later : Nat → Prop} {start middle place other : Address} {e f part next : Expr}

/-- A binding that loses no byte stays whole. -/
theorem whole (nonempty : 0 < e.bytes) (kept : ∀ byte, Spans start e byte → ¬gone byte) :
    Stretch gone start e start e where
  nonempty := nonempty
  low := Nat.le_refl _
  high := Nat.le_refl _
  kept := kept
  left := .inl rfl
  right := .inl rfl
  cut := by rw [Nat.sub_self, Expr.cut, if_pos ⟨rfl, rfl⟩]

theorem of_remnant {first past : Nat} (flat : e.IsFlat) (some_bytes : first < past)
    (remnant : Remnant first past start e place part) :
    Stretch (InRange first past) start e place part := by
  obtain ⟨nonempty, low, high, side, cut⟩ := remnant
  have narrow := e.bytes_lt
  have offset : (BitVec.ofNat 32 (place.toNat - start.toNat)).toNat = place.toNat - start.toNat :=
    Nat.mod_eq_of_lt (by omega)
  have size : (BitVec.ofNat 32 part.bytes).toNat = part.bytes := Nat.mod_eq_of_lt (by omega)
  rw [Expr.mkSlice_eq_cut flat.isShallow _ _ (by omega), offset, size, Except.ok.injEq] at cut
  refine ⟨nonempty, low, high, ?_, ?_, ?_, cut.symm⟩
  · unfold Spans InRange
    omega
  · exact side.imp And.left fun above ↦ by
      unfold InRange
      omega
  · exact side.symm.imp And.right fun below ↦ by
      unfold InRange
      omega

/-- A stretch of a stretch keeps clear of both. -/
theorem trans (flat : e.IsFlat) (outer : Stretch gone start e middle f)
    (inner : Stretch later middle f place part) :
    Stretch (fun byte ↦ gone byte ∨ later byte) start e place part where
  nonempty := inner.nonempty
  low := outer.low.trans inner.low
  high := inner.high.trans outer.high
  kept byte spans := by
    have low := inner.low
    have high := inner.high
    have around : Spans middle f byte := by
      unfold Spans at spans ⊢
      omega
    exact not_or.mpr ⟨outer.kept byte around, inner.kept byte spans⟩
  left := by
    rcases inner.left with rfl | lost
    · exact outer.left.imp_right .inl
    · exact .inr (.inr lost)
  right := by
    rcases inner.right with same | lost
    · rw [same]
      exact outer.right.imp_right .inl
    · exact .inr (.inr lost)
  cut := by
    have low := outer.low
    have lowInner := inner.low
    have high := outer.high
    have highInner := inner.high
    have sum : middle.toNat - start.toNat + (place.toNat - middle.toNat) =
        place.toNat - start.toNat := by omega
    rw [← sum, ← Expr.cut_cut flat.isShallow (show _ + f.bytes ≤ e.bytes by omega) (by omega),
      ← outer.cut]
    exact inner.cut

/-- A stretch begins no later than any other that shares a byte with it. -/
theorem place_le {byte : Nat} (first : Stretch gone start e place part)
    (second : Stretch gone start e other next) (here : Spans place part byte)
    (there : Spans other next byte) : place.toNat ≤ other.toNat := by
  rcases first.left with rfl | lost
  · exact second.low
  · refine Nat.le_of_not_lt fun after ↦ second.kept _ ?_ lost
    unfold Spans at here there ⊢
    omega

/-- A stretch ends no earlier than any other that shares a byte with it. -/
theorem end_le {byte : Nat} (first : Stretch gone start e place part)
    (second : Stretch gone start e other next) (here : Spans place part byte)
    (there : Spans other next byte) :
    other.toNat + next.bytes ≤ place.toNat + part.bytes := by
  rcases first.right with same | lost
  · rw [same]
    exact second.high
  · refine Nat.le_of_not_lt fun after ↦ second.kept _ ?_ lost
    unfold Spans at here there ⊢
    omega

/-- Stretches of one binding that share a byte are one. -/
theorem unique {byte : Nat} (first : Stretch gone start e place part)
    (second : Stretch gone start e other next) (here : Spans place part byte)
    (there : Spans other next byte) : place = other ∧ part = next := by
  obtain rfl : place = other := BitVec.eq_of_toNat_eq <|
    Nat.le_antisymm (first.place_le second here there) (second.place_le first there here)
  have size : part.bytes = next.bytes := by
    have := first.end_le second here there
    have := second.end_le first there here
    omega
  exact ⟨rfl, by rw [first.cut, second.cut, size]⟩

end Stretch

/-- The bindings are the stretches of others that keep clear of what is gone, all of them. -/
structure Carved (gone : Nat → Prop) (cells after : Cells) : Prop where
  layout : Layout after
  stretch : ∀ place part, after.get? place = some part →
    ∃ start e, cells.get? start = some e ∧ Stretch gone start e place part
  complete : ∀ start e byte, cells.get? start = some e → Spans start e byte → ¬gone byte →
    ∃ place part, after.get? place = some part ∧ Spans place part byte

namespace Carved

variable {gone later : Nat → Prop} {cells middle after other : Cells}

theorem refl (layout : Layout cells) (none : ∀ byte, ¬gone byte) : Carved gone cells cells where
  layout := layout
  stretch place part found :=
    ⟨place, part, found, .whole (layout.nonempty place part found) fun byte _ ↦ none byte⟩
  complete start e _ found spans _ := ⟨start, e, found, spans⟩

theorem trans (layout : Layout cells) (first : Carved gone cells middle)
    (second : Carved later middle after) :
    Carved (fun byte ↦ gone byte ∨ later byte) cells after where
  layout := second.layout
  stretch place part found := by
    obtain ⟨between, f, present, inner⟩ := second.stretch place part found
    obtain ⟨start, e, before, outer⟩ := first.stretch between f present
    exact ⟨start, e, before, outer.trans (layout.flat start e before) inner⟩
  complete start e byte found spans kept := by
    obtain ⟨notGone, notLater⟩ := not_or.mp kept
    obtain ⟨between, f, present, covers⟩ := first.complete start e byte found spans notGone
    exact second.complete between f byte present covers notLater

theorem get?_of_get? (layout : Layout cells) (first : Carved gone cells after)
    (second : Carved gone cells other) {place : Address} {part : Expr}
    (found : after.get? place = some part) : other.get? place = some part := by
  obtain ⟨start, e, before, stretch⟩ := first.stretch place part found
  have nonempty := stretch.nonempty
  have low := stretch.low
  have high := stretch.high
  have here : Spans place part place.toNat := ⟨Nat.le_refl _, by omega⟩
  have source : Spans start e place.toNat := ⟨low, by omega⟩
  obtain ⟨across, next, present, there⟩ :=
    second.complete start e place.toNat before source (stretch.kept _ here)
  obtain ⟨start', e', before', stretch'⟩ := second.stretch across next present
  have low' := stretch'.low
  have high' := stretch'.high
  have source' : Spans start' e' place.toNat := by
    unfold Spans at there ⊢
    omega
  obtain ⟨rfl, rfl⟩ := layout.ranges.eq_of_spans before before' source source'
  obtain ⟨rfl, rfl⟩ := stretch.unique stretch' here there
  exact present

/-- What is gone determines what is left. -/
theorem unique (layout : Layout cells) (first : Carved gone cells after)
    (second : Carved gone cells other) : after = other :=
  WordMap.ext_get? fun _ _ ↦ ⟨first.get?_of_get? layout second, second.get?_of_get? layout first⟩

end Carved

namespace Memory

/-- Clears one range after the other. -/
def concretizeAll (memory : Memory) (ranges : List (Address × Nat)) : Except Fault Memory :=
  ranges.foldlM (fun memory range ↦ memory.concretize range.1 range.2) memory

def concretizeAll? (memory : Memory) (ranges : List (Address × Nat)) : Option Memory :=
  ranges.foldlM (fun memory range ↦ memory.concretize? range.1 range.2) memory

/-- A range of the list has the byte. -/
def Covered (ranges : List (Address × Nat)) (byte : Nat) : Prop :=
  ∃ range ∈ ranges, InRange range.1.toNat (range.1.toNat + range.2) byte

variable {memory : Memory}

/-- Clearing one range carves it out of the bindings. -/
theorem concretize_carved (layout : Layout memory.cells) (address : Address) (length : Nat) :
    ∃ after, memory.concretize address length = .ok after ∧
      Carved (InRange address.toNat (address.toNat + length)) memory.cells after.cells := by
  obtain ⟨after, ran, cleared⟩ := concretize_spec layout address length
  refine ⟨after, ran, cleared.layout, fun place part found ↦ ?_,
    fun start e byte found spans outside ↦ ?_⟩
  · have nonempty := cleared.layout.nonempty place part found
    by_cases none : length = 0
    · rw [concretize, if_pos none] at ran
      cases ran
      exact ⟨place, part, found, .whole nonempty fun byte _ range ↦ by
        unfold InRange at range
        omega⟩
    rcases concretize_remains layout.ranges (by omega) ran found with
      ⟨before, apart⟩ | ⟨start, e, before, remnant⟩
    · exact ⟨place, part, before, .whole nonempty fun byte spans range ↦
        apart (meets_of_byte range spans)⟩
    · exact ⟨start, e, before, .of_remnant (layout.flat start e before) (by omega) remnant⟩
  · have kept := cleared.kept byte outside
    rw [layout.origin?_of_spans found spans] at kept
    obtain ⟨place, part, present, covers, -⟩ := Layout.exists_of_origin? kept
    exact ⟨place, part, present, covers⟩

/-- Clearing many ranges carves them all out of the bindings. -/
theorem concretizeAll_carved (layout : Layout memory.cells) (ranges : List (Address × Nat)) :
    ∃ after, memory.concretizeAll ranges = .ok after ∧
      Carved (Covered ranges) memory.cells after.cells := by
  induction ranges generalizing memory with
  | nil => exact ⟨memory, rfl, .refl layout fun byte ⟨_, member, _⟩ ↦ List.not_mem_nil member⟩
  | cons range rest ih =>
    obtain ⟨middle, ran, first⟩ := concretize_carved layout range.1 range.2
    obtain ⟨after, ranRest, others⟩ := ih first.layout
    refine ⟨after, by rw [concretizeAll, List.foldlM_cons, ran]; exact ranRest, ?_⟩
    have union : Covered (range :: rest) = fun byte ↦
        InRange range.1.toNat (range.1.toNat + range.2) byte ∨ Covered rest byte :=
      funext fun byte ↦ propext (List.exists_mem_cons_iff ..)
    rw [union]
    exact first.trans layout others

theorem concretizeAll_eq (layout : Layout memory.cells) (first second : List (Address × Nat))
    (same : ∀ byte, Covered first byte ↔ Covered second byte) :
    ∃ after, Layout after.cells ∧ memory.concretizeAll first = .ok after ∧
      memory.concretizeAll second = .ok after := by
  obtain ⟨after, ran, carved⟩ := concretizeAll_carved layout first
  obtain ⟨other, ranOther, carvedOther⟩ := concretizeAll_carved layout second
  have covered : Covered first = Covered second := funext fun byte ↦ propext (same byte)
  rw [covered] at carved
  have equal : after.cells = other.cells := carved.unique layout carvedOther
  refine ⟨after, carved.layout, ran, ?_⟩
  cases after
  cases other
  cases equal
  exact ranOther

theorem concretizeAll_singleton (memory : Memory) (address : Address) (length : Nat) :
    memory.concretizeAll [(address, length)] = memory.concretize address length := by
  rw [concretizeAll, List.foldlM_cons]
  exact bind_pure _

theorem concretizeAll_pair {after : Memory} {address other : Address} {length count : Nat}
    (ran : memory.concretizeAll [(address, length), (other, count)] = .ok after) :
    ∃ middle, memory.concretize address length = .ok middle ∧
      middle.concretize other count = .ok after := by
  rw [concretizeAll, List.foldlM_cons] at ran
  obtain ⟨middle, first, second⟩ := bind_eq_ok.mp ran
  exact ⟨middle, first, (concretizeAll_singleton middle other count).symm.trans second⟩

/-- Checked arithmetic clears ranges that do not wrap around. -/
theorem concretizeAll?_completes (layout : Layout memory.cells)
    (cuttable : AllCells Expr.Cuttable memory.cells) {ranges : List (Address × Nat)}
    (inside : ∀ range ∈ ranges, range.1.toNat + range.2 < 2 ^ 64) :
    Completes (memory.concretizeAll? ranges) (memory.concretizeAll ranges) := by
  induction ranges generalizing memory with
  | nil => exact .ok memory
  | cons range rest ih =>
    obtain ⟨here, later⟩ := List.forall_mem_cons.mp inside
    obtain ⟨middle, ran, cleared⟩ := concretize_spec layout range.1 range.2
    refine (concretize?_completes layout cuttable here).bind fun reached first ↦ ?_
    obtain rfl : middle = reached := Except.ok.inj (ran.symm.trans first)
    exact ih cleared.layout (cleared.all _ Expr.cutClosed_cuttable cuttable) later

/-- An input of eight bytes and three bytes of another one behind it. -/
def sliceBehind : Memory :=
  ⟨.ofList [(0x1000, .mkInput 0 .long 5), (0x1008, .slice (.mkInput 1 .int 9) 1 3 0)]⟩

end Memory

end Concolic
