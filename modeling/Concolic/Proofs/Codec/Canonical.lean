import Concolic.Proofs.Codec.Record
import Concolic.Proofs.Codec.Shortest

/-!
# Canonical records

Bytes may list the entries of a map in any order and a key more than once.  Of equal keys the last
one counts, and what a record is written as lists every key once, so that no other bytes for it
are fewer.
-/

namespace Concolic

open Codec Codec.Format Codec.Reader

/-! ## Maps -/

namespace WordMap

variable {width : Nat} {α : Type}

/-- The last of the entries with the key has the value. -/
def LastAt (key : BitVec width) (value : α) (entries : List (BitVec width × α)) : Prop :=
  ∃ earlier later, entries = earlier ++ (key, value) :: later ∧ ∀ entry ∈ later, entry.1 ≠ key

/-- The last of the entries with a key is the one that is held. -/
def HoldsLast (map : WordMap width α) (entries : List (BitVec width × α)) : Prop :=
  ∀ key value, map.get? key = some value ↔ LastAt key value entries

variable {key : BitVec width} {value : α} {entries rest : List (BitVec width × α)}

theorem not_lastAt_nil : ¬LastAt key value [] := by
  rintro ⟨earlier, later, split, -⟩
  simp at split

theorem lastAt_cons {first : BitVec width × α} :
    LastAt key value (first :: rest) ↔
      LastAt key value rest ∨ first = (key, value) ∧ ∀ entry ∈ rest, entry.1 ≠ key := by
  constructor
  · rintro ⟨earlier, later, split, apart⟩
    rcases List.cons_eq_append_iff.mp split with ⟨rfl, same⟩ | ⟨earlier, rfl, rfl⟩
    · obtain ⟨rfl, rfl⟩ := List.cons.inj same
      exact .inr ⟨rfl, apart⟩
    · exact .inl ⟨earlier, later, rfl, apart⟩
  · rintro (⟨earlier, later, rfl, apart⟩ | ⟨rfl, apart⟩)
    · exact ⟨first :: earlier, later, rfl, apart⟩
    · exact ⟨[], rest, rfl, apart⟩

/-- Entries that are inserted one after the other stand above those of the map. -/
theorem get?_foldl_insert (map : WordMap width α) (entries : List (BitVec width × α)) :
    (entries.foldl (fun map entry ↦ map.insert entry.1 entry.2) map).get? key = some value ↔
      LastAt key value entries ∨
        map.get? key = some value ∧ ∀ entry ∈ entries, entry.1 ≠ key := by
  induction entries generalizing map with
  | nil => simp [not_lastAt_nil]
  | cons first rest ih =>
    obtain ⟨other, held⟩ := first
    rw [List.foldl_cons, ih, get?_insert, lastAt_cons, List.forall_mem_cons, or_assoc]
    refine or_congr_right ?_
    by_cases same : key = other
    · simp [same]
    · simp [same, Ne.symm same]

theorem holdsLast_ofList (entries : List (BitVec width × α)) :
    (ofList entries).HoldsLast entries := by
  intro key value
  rw [ofList, get?_foldl_insert]
  simp

/-- Whatever is written for entries, an entry that is inserted adds at most its own. -/
theorem length_flatMap_insertEntry_le {β : Type} (write : BitVec width × α → List β)
    (key : BitVec width) (value : α) (entries : List (BitVec width × α)) :
    ((insertEntry key value entries).flatMap write).length ≤
      (write (key, value)).length + (entries.flatMap write).length := by
  induction entries with
  | nil => simp [insertEntry]
  | cons first rest ih =>
    obtain ⟨smallest, held⟩ := first
    unfold insertEntry
    split
    · simp
    · split
      · simp only [List.flatMap_cons, List.length_append]
        omega
      · simp only [List.flatMap_cons, List.length_append]
        omega

theorem length_flatMap_ofList_le {β : Type} (write : BitVec width × α → List β)
    (entries : List (BitVec width × α)) :
    ((ofList entries).entries.flatMap write).length ≤ (entries.flatMap write).length := by
  -- entries are inserted into any map, since the map grows along the list
  suffices onto : ∀ map : WordMap width α,
      ((entries.foldl (fun map entry ↦ map.insert entry.1 entry.2) map).entries.flatMap
        write).length ≤ (map.entries.flatMap write).length + (entries.flatMap write).length by
    simpa [ofList, empty] using onto empty
  induction entries with
  | nil => exact fun map ↦ Nat.le_refl _
  | cons first rest ih =>
    intro map
    have others := ih (map.insert first.1 first.2)
    have inserted : ((map.insert first.1 first.2).entries.flatMap write).length ≤
        (write first).length + (map.entries.flatMap write).length :=
      length_flatMap_insertEntry_le write first.1 first.2 map.entries
    rw [List.foldl_cons, List.flatMap_cons, List.length_append]
    omega

theorem size_ofList_le (entries : List (BitVec width × α)) :
    (ofList entries).size ≤ entries.length := by
  simpa [size] using length_flatMap_ofList_le (fun entry ↦ [entry]) entries

theorem mem_of_mem_ofList {entry : BitVec width × α}
    (member : entry ∈ (ofList entries).entries) : entry ∈ entries := by
  obtain ⟨earlier, later, rfl, -⟩ :=
    (holdsLast_ofList entries entry.1 entry.2).mp ((mem_entries_iff ..).mp member)
  exact List.mem_append_right _ List.mem_cons_self

end WordMap

/-- Entries that are dropped leave fewer to count and to write. -/
theorem Codec.Format.canonical_wordMap {α : Type} {width : Nat} {key : Format (BitVec width)}
    {value : Format α} (entry : (pair key value).Canonical) : (wordMap key value).Canonical := by
  refine (ensures_list entry).map fun entries taken ⟨countable, each, fits⟩ ↦ ⟨?_, ?_⟩
  · refine returns_convert (returns_list ?_ fun entry member ↦ ?_) (WordMap.ofList_entries _)
    · exact Nat.lt_of_le_of_lt (WordMap.size_ofList_le entries) countable
    · exact each entry (WordMap.mem_of_mem_ofList member)
  · refine Nat.le_trans ?_ fits
    rw [wordMap, convert, length_encode_list, length_encode_list]
    exact Nat.add_le_add (length_encodeNumber_mono (WordMap.size_ofList_le entries))
      (WordMap.length_flatMap_ofList_le _ entries)

/-! ## Records -/

theorem Constraint.canonical_format (room : Nat) : (Constraint.format room).Canonical :=
  canonical_convert (canonical_pair canonical_word64
    (canonical_pair (canonical_tree room) canonical_bool)) fun _ ↦ rfl

theorem Path.canonical_format (room : Nat) : (Path.format room).Canonical :=
  canonical_convert (canonical_pair (canonical_list canonical_signed32)
    (canonical_list (Constraint.canonical_format room))) fun _ ↦ rfl

theorem Memory.canonical_format (room : Nat) : (Memory.format room).Canonical :=
  canonical_convert (canonical_wordMap (canonical_pair canonical_word64 (canonical_tree room)))
    fun _ ↦ rfl

namespace Record

theorem canonical_format (room : Nat) : (Record.format room).Canonical :=
  canonical_convert (canonical_pair (canonical_list canonical_signed64)
    (canonical_pair (canonical_wordMap (canonical_pair canonical_word32 canonical_ctype))
      (canonical_pair (Path.canonical_format room) (Memory.canonical_format room)))) fun _ ↦ rfl

/-- What the bytes of a record list, in their order. -/
structure Listing where
  inputs : List Value
  vars : List (BitVec 32 × CType)
  path : Path
  cells : List (BitVec 64 × Expr)

namespace Listing

def format (room : Nat) : Format Listing :=
  (signed64.list.pair ((word32.pair ctype).list.pair
    ((Path.format room).pair (word64.pair (tree room)).list))).convert
    (fun (inputs, vars, path, cells) ↦ ⟨inputs, vars, path, cells⟩)
    fun listing ↦ (listing.inputs, listing.vars, listing.path, listing.cells)

def toRecord (listing : Listing) : Record where
  inputs := listing.inputs
  vars := .ofList listing.vars
  path := listing.path
  memory := ⟨.ofList listing.cells⟩

end Listing

theorem read_format (room : Nat) :
    (Record.format room).read = do return (← (Listing.format room).read).toRecord := by
  simp only [Record.format, Memory.format, Listing.format, convert, pair, wordMap, bind_assoc,
    pure_bind]
  rfl

variable {room : Nat} {bytes : Bytes} {record : Record}

theorem exists_listing (accepted : deserializeIn room bytes = .ok record) :
    ∃ listing, (Listing.format room).decode bytes = .ok listing ∧ record = listing.toRecord := by
  have read := (decode_eq_ok_iff ..).mp accepted
  rw [read_format] at read
  obtain ⟨listing, rest, readListing, made⟩ := (bind_eq_ok_iff ..).mp read
  obtain ⟨rfl, rfl⟩ := Prod.mk.inj (Except.ok.inj made)
  exact ⟨listing, (decode_eq_ok_iff ..).mpr readListing, rfl⟩

/-- No bytes for a record are fewer than those it is written as, which are read as the same record
again.  Its maps are sorted and hold the last of the entries with each key that the bytes list. -/
theorem serialize_shortest (accepted : deserializeIn room bytes = .ok record) :
    record.serialize.length ≤ bytes.length ∧
      deserializeIn room record.serialize = .ok record ∧
      Ascending record.vars.entries ∧ Ascending record.memory.cells.entries ∧
      ∃ listing, (Listing.format room).decode bytes = .ok listing ∧
        record.inputs = listing.inputs ∧ record.path = listing.path ∧
        record.vars.HoldsLast listing.vars ∧ record.memory.cells.HoldsLast listing.cells := by
  have read := (decode_eq_ok_iff ..).mp accepted
  obtain ⟨taken, all, returns, fits⟩ := canonical_format room bytes record [] read
  have same : (format room).encode record = record.serialize := by
    rw [serialize, encode_format room partLimit]
  rw [same] at fits
  refine ⟨?_, ?_, record.vars.ascending, record.memory.cells.ascending, ?_⟩
  · rwa [all]
  · rw [← same]
    exact decode_encode returns
  · obtain ⟨listing, decoded, rfl⟩ := exists_listing accepted
    exact ⟨listing, decoded, rfl, rfl, WordMap.holdsLast_ofList _, WordMap.holdsLast_ofList _⟩

/-- Numbers in long forms, entries out of order, and each map with a key listed twice. -/
def wordyBytes : Bytes :=
  [252, 1, 0, 0, 0, 251, 10, 0,
    3, 2, 1, 0, 1, 2, 5,
    0, 0,
    2, 251, 9, 0, 1, 1, 4, 9, 1, 2, 6]

def terseRecord : Record where
  inputs := [5]
  vars := .ofList [(0, .uchar), (2, .uint)]
  memory := ⟨.ofList [(9, .const .char 3)]⟩

theorem serialize_shortest_wordy :
    deserializeIn 0 wordyBytes = .ok terseRecord ∧
      terseRecord.serialize.length ≤ wordyBytes.length ∧
      deserializeIn 0 terseRecord.serialize = .ok terseRecord ∧
      terseRecord.vars.get? 2 = some .uint := by
  have accepted : deserializeIn 0 wordyBytes = .ok terseRecord := by rfl
  obtain ⟨shorter, again, -⟩ := serialize_shortest accepted
  exact ⟨accepted, shorter, again, rfl⟩

end Record

end Concolic
