import Concolic.Codec.Record
import Concolic.Proofs.Codec.Tree

/-!
# Reading back records

A record whose lists can be counted is read back from its bytes as it was, on every machine that
has room for the parts of its assemblies, and so is a memory.  Nothing is asked of the expressions
otherwise: no part of them needs to fit another.
-/

namespace Concolic

open Codec

/-! ## Maps -/

namespace WordMap

variable {width : Nat} {α : Type}

theorem insertEntry_of_forall_lt {key : BitVec width} (value : α)
    {entries : List (BitVec width × α)} (above : ∀ entry ∈ entries, entry.1 < key) :
    insertEntry key value entries = entries ++ [(key, value)] := by
  induction entries with
  | nil => rfl
  | cons first rest ih =>
    obtain ⟨here, later⟩ := List.forall_mem_cons.mp above
    have notBelow : ¬key < first.1 := BitVec.not_lt.mpr (BitVec.le_of_lt here)
    have different : ¬key = first.1 := fun same ↦ BitVec.lt_irrefl key (same ▸ here)
    rw [insertEntry, if_neg notBelow, if_neg different, ih later, List.cons_append]

/-- Entries in ascending order above those of a map are appended to it. -/
theorem entries_foldl_insert (map : WordMap width α) {later : List (BitVec width × α)}
    (ascending : Ascending (map.entries ++ later)) :
    (later.foldl (fun map entry ↦ map.insert entry.1 entry.2) map).entries =
      map.entries ++ later := by
  induction later generalizing map with
  | nil => simp
  | cons entry rest ih =>
    have above : ∀ other ∈ map.entries, other.1 < entry.1 := fun other member ↦
      (List.pairwise_append.mp ascending).2.2 other member entry (by simp)
    have inserted : (map.insert entry.1 entry.2).entries = map.entries ++ [entry] :=
      insertEntry_of_forall_lt entry.2 above
    have together : (map.insert entry.1 entry.2).entries ++ rest = map.entries ++ entry :: rest := by
      rw [inserted, List.append_assoc, List.singleton_append]
    rw [List.foldl_cons, ih _ (together ▸ ascending), together]

theorem ofList_entries (map : WordMap width α) : ofList map.entries = map :=
  ext_entries (entries_foldl_insert empty map.ascending)

theorem length_add_le {entries : List (BitVec width × α)} (ascending : Ascending entries)
    {low : Nat} (above : ∀ entry ∈ entries, low ≤ entry.1.toNat) (room : low ≤ 2 ^ width) :
    low + entries.length ≤ 2 ^ width := by
  induction entries generalizing low with
  | nil => exact room
  | cons first rest ih =>
    obtain ⟨below, others⟩ := List.pairwise_cons.mp ascending
    have here := above first (by simp)
    have higher : ∀ entry ∈ rest, first.1.toNat + 1 ≤ entry.1.toNat :=
      fun entry member ↦ below entry member
    have count := ih others higher first.1.isLt
    rw [List.length_cons]
    omega

/-- There are no more entries than keys. -/
theorem size_le (map : WordMap width α) : map.size ≤ 2 ^ width := by
  have lowest : ∀ entry ∈ map.entries, 0 ≤ entry.1.toNat := fun _ _ ↦ Nat.zero_le _
  have count := length_add_le map.ascending lowest (Nat.zero_le _)
  rwa [Nat.zero_add] at count

end WordMap

namespace Codec.Format

variable {α β : Type} {width : Nat} {first second : Format α}

/-! ## Formats that write the same bytes -/

theorem encode_pair_congr {third fourth : Format β} (left : first.encode = second.encode)
    (right : third.encode = fourth.encode) :
    (first.pair third).encode = (second.pair fourth).encode := by
  funext both
  rw [pair, pair, left, right]

theorem encode_list_congr (item : first.encode = second.encode) :
    first.list.encode = second.list.encode := by
  funext items
  rw [list, list, item]

theorem encode_convert_congr (whole : first.encode = second.encode) (make : α → β)
    (parts : β → α) : (first.convert make parts).encode = (second.convert make parts).encode := by
  funext value
  rw [convert, convert, whole]

theorem encode_tree (room : Nat) : (tree room).encode = encodeTree :=
  rfl

theorem returns_wordMap {key : Format (BitVec width)} {value : Format α} {map : WordMap width α}
    (keys : ∀ word, key.Returns word) (countable : map.size < 2 ^ 64)
    (each : ∀ word entry, map.get? word = some entry → value.Returns entry) :
    (wordMap key value).Returns map := by
  refine returns_convert (returns_list countable ?_) map.ofList_entries
  rintro ⟨word, entry⟩ member
  exact returns_pair (keys word) (each word entry ((map.mem_entries_iff word entry).mp member))

end Codec.Format

/-! ## Records -/

open Codec.Format

/-- The bindings can be counted, and there is room for the parts of their expressions. -/
structure Memory.Fits (room : Nat) (memory : Memory) : Prop where
  countable : memory.size < 2 ^ 64
  cells : ∀ start e, memory.get? start = some e → Expr.Everywhere (Expr.HasRoom room) e

/-- Every list can be counted, and there is room for the parts of all expressions. -/
structure Record.Fits (room : Nat) (record : Record) : Prop where
  inputs : record.inputs.length < 2 ^ 64
  branches : record.path.branches.length < 2 ^ 64
  constraints : record.path.constraints.length < 2 ^ 64
  conditions : ∀ constraint ∈ record.path.constraints,
    Expr.Everywhere (Expr.HasRoom room) constraint.condition
  memory : record.memory.Fits room

variable {room : Nat}

/-! The room matters to the reader alone. -/

theorem Constraint.encode_format (room other : Nat) :
    (Constraint.format room).encode = (Constraint.format other).encode := by
  refine encode_convert_congr (encode_pair_congr rfl (encode_pair_congr ?_ rfl)) _ _
  rw [encode_tree, encode_tree]

theorem Memory.encode_format (room other : Nat) :
    (Memory.format room).encode = (Memory.format other).encode := by
  refine encode_convert_congr (encode_convert_congr
    (encode_list_congr (encode_pair_congr rfl ?_)) _ _) _ _
  rw [encode_tree, encode_tree]

theorem Record.encode_format (room other : Nat) :
    (Record.format room).encode = (Record.format other).encode := by
  have path : (Path.format room).encode = (Path.format other).encode :=
    encode_convert_congr (encode_pair_congr rfl
      (encode_list_congr (Constraint.encode_format room other))) _ _
  exact encode_convert_congr (encode_pair_congr rfl (encode_pair_congr rfl
    (encode_pair_congr path (Memory.encode_format room other)))) _ _

theorem Constraint.returns_format {constraint : Constraint}
    (fits : Expr.Everywhere (Expr.HasRoom room) constraint.condition) :
    (Constraint.format room).Returns constraint :=
  returns_convert (returns_pair (returns_word64 constraint.branch)
    (returns_pair (returns_tree fits) (returns_bool constraint.taken))) rfl

theorem Memory.returns_format {memory : Memory} (fits : memory.Fits room) :
    (Memory.format room).Returns memory :=
  returns_convert (returns_wordMap returns_word64 fits.countable fun start e found ↦
    returns_tree (fits.cells start e found)) rfl

theorem Record.returns_format {record : Record} (fits : record.Fits room) :
    (Record.format room).Returns record := by
  have few : record.vars.size < 2 ^ 64 := Nat.lt_of_le_of_lt record.vars.size_le (by decide)
  have inputs := returns_list fits.inputs fun value _ ↦ returns_signed64 value
  have vars := returns_wordMap returns_word32 few fun _ ty _ ↦ returns_ctype ty
  have branches := returns_list fits.branches fun branch _ ↦ returns_signed32 branch
  have constraints := returns_list fits.constraints fun constraint member ↦
    Constraint.returns_format (fits.conditions constraint member)
  have path : (Path.format room).Returns record.path :=
    returns_convert (returns_pair branches constraints) rfl
  exact returns_convert (returns_pair inputs (returns_pair vars
    (returns_pair path (Memory.returns_format fits.memory)))) rfl

theorem Record.deserializeIn_serialize {record : Record} (fits : record.Fits room) :
    Record.deserializeIn room record.serialize = .ok record := by
  rw [Record.serialize, Record.encode_format partLimit room]
  exact decode_encode (Record.returns_format fits)

theorem Memory.deserializeIn_serialize {memory : Memory} (fits : memory.Fits room) :
    Memory.deserializeIn room memory.serialize = .ok memory := by
  rw [Memory.serialize, Memory.encode_format partLimit room]
  exact decode_encode (Memory.returns_format fits)

/-- Records and memories are read back as they were, and then written as the same bytes. -/
theorem Record.deserialize_serialize {record : Record} {memory : Memory}
    (recordFits : record.Fits room) (memoryFits : memory.Fits room) :
    (Record.deserializeIn room record.serialize = .ok record ∧
      Record.serialize <$> Record.deserializeIn room record.serialize = .ok record.serialize) ∧
    Memory.deserializeIn room memory.serialize = .ok memory ∧
      Memory.serialize <$> Memory.deserializeIn room memory.serialize = .ok memory.serialize := by
  have ofRecord := Record.deserializeIn_serialize recordFits
  have ofMemory := Memory.deserializeIn_serialize memoryFits
  refine ⟨⟨ofRecord, ?_⟩, ofMemory, ?_⟩
  · rw [ofRecord]
    rfl
  · rw [ofMemory]
    rfl

/-- A slice that reaches out of a slice of an aggregate whose parts overlap. -/
def tangledExample : Expr :=
  .slice (.slice (.assemble .struct 2 [(1, .input 0 .int 5), (0, .const .bool 0xffffffffffffffff)]
    0x8000000000000000) 3 9 0) 0 0 7

theorem tangledExample_hasRoom : Expr.Everywhere (Expr.HasRoom 2) tangledExample := by
  refine (Expr.everywhere_slice ..).mpr ⟨by decide, (Expr.everywhere_slice ..).mpr ⟨by decide, ?_⟩⟩
  refine (Expr.everywhere_assemble ..).mpr ⟨by decide, ?_⟩
  simp only [List.forall_mem_cons]
  exact ⟨(Expr.everywhere_leaf rfl).mpr (by decide), (Expr.everywhere_leaf rfl).mpr (by decide),
    by simp⟩

def tangledRecord : Record where
  inputs := [300, 0x8000000000000000]
  vars := .ofList [(7, .struct), (0, .int)]
  path := { branches := [9, 0xffffffff], constraints := [⟨70000, tangledExample, false⟩] }
  memory := ⟨.ofList [(0xffffffffffffffff, tangledExample)]⟩

theorem Record.deserialize_serialize_tangled :
    tangledRecord.Fits 2 ∧ tangledRecord.memory.Fits 2 ∧
    (Record.deserializeIn 2 tangledRecord.serialize = .ok tangledRecord ∧
      Record.serialize <$> Record.deserializeIn 2 tangledRecord.serialize =
        .ok tangledRecord.serialize) ∧
    Memory.deserializeIn 2 tangledRecord.memory.serialize = .ok tangledRecord.memory ∧
      Memory.serialize <$> Memory.deserializeIn 2 tangledRecord.memory.serialize =
        .ok tangledRecord.memory.serialize := by
  have memoryFits : tangledRecord.memory.Fits 2 := by
    refine ⟨by decide, fun start e found ↦ ?_⟩
    have member := (WordMap.mem_entries_iff _ start e).mpr found
    obtain ⟨-, rfl⟩ : start = 0xffffffffffffffff ∧ e = tangledExample := by
      simpa [tangledRecord, WordMap.ofList, WordMap.insert, WordMap.insertEntry, WordMap.empty]
        using member
    exact tangledExample_hasRoom
  have recordFits : tangledRecord.Fits 2 := by
    refine ⟨by decide, by decide, by decide, ?_, memoryFits⟩
    simpa [tangledRecord] using tangledExample_hasRoom
  exact ⟨recordFits, memoryFits, deserialize_serialize recordFits memoryFits⟩

end Concolic
