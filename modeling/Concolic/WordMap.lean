/-!
# Finite maps keyed by words

A map is the list of its entries in strictly ascending order of the keys, so that two maps with
the same entries are equal and every listing is sorted.  Inserting at a key that is present
replaces the value there.
-/

namespace Concolic

/-- Entries in strictly ascending order of their keys. -/
def Ascending {width : Nat} {α : Type} (entries : List (BitVec width × α)) : Prop :=
  entries.Pairwise fun a b ↦ a.1 < b.1

structure WordMap (width : Nat) (α : Type) where
  entries : List (BitVec width × α)
  ascending : Ascending entries

namespace WordMap

variable {width : Nat} {α : Type}

instance [DecidableEq α] : DecidableEq (WordMap width α) := fun a b ↦
  decidable_of_iff (a.entries = b.entries) <| by
    cases a
    cases b
    simp

def empty : WordMap width α :=
  ⟨[], List.Pairwise.nil⟩

instance : Inhabited (WordMap width α) := ⟨empty⟩

def size (map : WordMap width α) : Nat :=
  map.entries.length

def isEmpty (map : WordMap width α) : Bool :=
  map.entries.isEmpty

def lookup (key : BitVec width) : List (BitVec width × α) → Option α
  | [] => none
  | (first, value) :: rest => if key = first then some value else lookup key rest

def insertEntry (key : BitVec width) (value : α) :
    List (BitVec width × α) → List (BitVec width × α)
  | [] => [(key, value)]
  | (first, other) :: rest =>
    if key < first then (key, value) :: (first, other) :: rest
    else if key = first then (key, value) :: rest
    else (first, other) :: insertEntry key value rest

theorem mem_insertEntry {key : BitVec width} {value : α} {entries : List (BitVec width × α)}
    {entry : BitVec width × α} (member : entry ∈ insertEntry key value entries) :
    entry = (key, value) ∨ entry ∈ entries := by
  induction entries with
  | nil => simpa [insertEntry] using member
  | cons first rest ih =>
    unfold insertEntry at member
    split at member
    · simpa using member
    · split at member
      · rcases List.mem_cons.mp member with here | there
        · exact .inl here
        · exact .inr (List.mem_cons_of_mem _ there)
      · rcases List.mem_cons.mp member with here | there
        · exact .inr (by simp [here])
        · rcases ih there with new | old
          · exact .inl new
          · exact .inr (List.mem_cons_of_mem _ old)

theorem ascending_insertEntry (key : BitVec width) (value : α)
    {entries : List (BitVec width × α)} (ascending : Ascending entries) :
    Ascending (insertEntry key value entries) := by
  induction entries with
  | nil => exact List.pairwise_singleton _ _
  | cons first rest ih =>
    obtain ⟨smallest, others⟩ := List.pairwise_cons.mp ascending
    unfold insertEntry
    split
    · next below =>
      refine List.pairwise_cons.mpr ⟨fun entry member ↦ ?_, ascending⟩
      rcases List.mem_cons.mp member with rfl | there
      · exact below
      · exact BitVec.lt_trans below (smallest entry there)
    · next notBelow =>
      split
      · next equal =>
        refine List.pairwise_cons.mpr ⟨fun entry member ↦ ?_, others⟩
        exact equal ▸ smallest entry member
      · next different =>
        refine List.pairwise_cons.mpr ⟨fun entry member ↦ ?_, ih others⟩
        rcases mem_insertEntry member with rfl | there
        · have apart : key.toNat ≠ first.1.toNat := fun h ↦ different (BitVec.eq_of_toNat_eq h)
          simp only [BitVec.lt_def] at notBelow ⊢
          omega
        · exact smallest entry there

def insert (map : WordMap width α) (key : BitVec width) (value : α) : WordMap width α :=
  ⟨insertEntry key value map.entries, ascending_insertEntry key value map.ascending⟩

def erase (map : WordMap width α) (key : BitVec width) : WordMap width α :=
  ⟨map.entries.filter fun entry ↦ entry.1 ≠ key, map.ascending.filter _⟩

def get? (map : WordMap width α) (key : BitVec width) : Option α :=
  lookup key map.entries

def keys (map : WordMap width α) : List (BitVec width) :=
  map.entries.map Prod.fst

/-- Of entries with equal keys the last one stays. -/
def ofList (entries : List (BitVec width × α)) : WordMap width α :=
  entries.foldl (fun map entry ↦ map.insert entry.1 entry.2) empty

theorem ext_entries {a b : WordMap width α} (equal : a.entries = b.entries) : a = b := by
  cases a
  cases b
  simp_all

theorem lookup_insertEntry (key other : BitVec width) (value : α)
    (entries : List (BitVec width × α)) :
    lookup other (insertEntry key value entries) =
      if other = key then some value else lookup other entries := by
  induction entries with
  | nil => simp [insertEntry, lookup]
  | cons first rest ih =>
    obtain ⟨smallest, held⟩ := first
    unfold insertEntry
    split
    · simp [lookup]
    · split
      · next equal =>
        subst equal
        by_cases same : other = key <;> simp [lookup, same]
      · next different =>
        by_cases same : other = smallest
        · have : other ≠ key := fun h ↦ different (h ▸ same)
          simp [lookup, same, same ▸ this]
        · simp [lookup, same, ih]

theorem lookup_filter_ne (key other : BitVec width) (entries : List (BitVec width × α)) :
    lookup other (entries.filter fun entry ↦ entry.1 ≠ key) =
      if other = key then none else lookup other entries := by
  induction entries with
  | nil => simp [lookup]
  | cons first rest ih =>
    obtain ⟨smallest, held⟩ := first
    by_cases gone : smallest = key
    · subst gone
      by_cases same : other = smallest <;> simp_all [lookup]
    · by_cases same : other = smallest
      · subst same
        simp [lookup, gone]
      · simp_all [lookup]

@[simp] theorem get?_empty (key : BitVec width) : (empty : WordMap width α).get? key = none := rfl

@[simp] theorem get?_insert (map : WordMap width α) (key other : BitVec width) (value : α) :
    (map.insert key value).get? other = if other = key then some value else map.get? other :=
  lookup_insertEntry key other value map.entries

@[simp] theorem get?_erase (map : WordMap width α) (key other : BitVec width) :
    (map.erase key).get? other = if other = key then none else map.get? other :=
  lookup_filter_ne key other map.entries

theorem length_insertEntry {key : BitVec width} (value : α) {entries : List (BitVec width × α)}
    (absent : lookup key entries = none) :
    (insertEntry key value entries).length = entries.length + 1 := by
  induction entries with
  | nil => rfl
  | cons first rest ih =>
    obtain ⟨smallest, held⟩ := first
    unfold lookup at absent
    unfold insertEntry
    split at absent
    · contradiction
    · next different =>
      split
      · rfl
      · rw [List.length_cons, ih absent, List.length_cons]

/-- Inserting at a key that is absent adds an entry. -/
theorem size_insert (map : WordMap width α) {key : BitVec width} (value : α)
    (absent : map.get? key = none) : (map.insert key value).size = map.size + 1 :=
  length_insertEntry value absent

theorem mem_entries_iff (map : WordMap width α) (key : BitVec width) (value : α) :
    (key, value) ∈ map.entries ↔ map.get? key = some value := by
  obtain ⟨entries, ascending⟩ := map
  unfold get?
  induction entries with
  | nil => simp [lookup]
  | cons first rest ih =>
    obtain ⟨smallest, held⟩ := first
    obtain ⟨below, others⟩ := List.pairwise_cons.mp ascending
    have later := ih others
    by_cases same : key = smallest
    · subst same
      have absent : (key, value) ∉ rest := fun member ↦
        BitVec.lt_irrefl key (below (key, value) member)
      simp [lookup, absent, eq_comm]
    · simpa [lookup, same] using later

end WordMap

end Concolic
