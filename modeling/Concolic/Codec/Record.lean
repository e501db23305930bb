import Concolic.Codec.Tree
import Concolic.Record

/-!
# Records as bytes

A record is its inputs, the types of the inputs consumed, its branches and constraints, and its
memory, in this order.  What can be read back depends on the room of the machine; the bytes written
do not.
-/

namespace Concolic

open Codec

def Constraint.format (room : Nat) : Format Constraint :=
  (Format.word64.pair ((Format.tree room).pair Format.bool)).convert
    (fun (branch, condition, taken) ↦ ⟨branch, condition, taken⟩)
    fun constraint ↦ (constraint.branch, constraint.condition, constraint.taken)

def Path.format (room : Nat) : Format Path :=
  (Format.signed32.list.pair (Constraint.format room).list).convert
    (fun (branches, constraints) ↦ ⟨branches, constraints⟩)
    fun path ↦ (path.branches, path.constraints)

def Memory.format (room : Nat) : Format Memory :=
  (Format.wordMap Format.word64 (Format.tree room)).convert Memory.mk Memory.cells

def Record.format (room : Nat) : Format Record :=
  (Format.signed64.list.pair ((Format.wordMap Format.word32 Format.ctype).pair
    ((Path.format room).pair (Memory.format room)))).convert
    (fun (inputs, vars, path, memory) ↦ ⟨inputs, vars, path, memory⟩)
    fun record ↦ (record.inputs, record.vars, record.path, record.memory)

namespace Memory

def serialize (memory : Memory) : Bytes :=
  (format partLimit).encode memory

/-- Reads on a machine that has room for `room` parts at once. -/
def deserializeIn (room : Nat) (bytes : Bytes) : Except DecodeError Memory :=
  (format room).decode bytes

def deserialize (bytes : Bytes) : Except DecodeError Memory :=
  deserializeIn partLimit bytes

end Memory

namespace Record

def serialize (record : Record) : Bytes :=
  (format partLimit).encode record

/-- Reads on a machine that has room for `room` parts at once. -/
def deserializeIn (room : Nat) (bytes : Bytes) : Except DecodeError Record :=
  (format room).decode bytes

def deserialize (bytes : Bytes) : Except DecodeError Record :=
  deserializeIn partLimit bytes

end Record

end Concolic
