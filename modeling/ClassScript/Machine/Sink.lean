import ClassScript.Machine.Fault
import ClassScript.Text.Utf8

/-! Where output goes: bytes are taken in order until the sink is full. -/
namespace ClassScript

structure Sink where
  accepted : Array UInt8
  /-- The number of bytes that are taken in all; without one there is no end. -/
  capacity : Option Nat
  refusesFlush : Bool

namespace Sink

/-- Takes everything. -/
def unlimited : Sink := ⟨#[], none, false⟩

/-- The number of these bytes that find room. -/
def room (sink : Sink) (bytes : List UInt8) : Nat :=
  match sink.capacity with
  | none => bytes.length
  | some capacity => min bytes.length (capacity - sink.accepted.size)

/-- Takes as many bytes as find room, and fails when some do not. -/
def write (bytes : List UInt8) : EStateM SinkFault Sink Unit := fun sink =>
  let room := sink.room bytes
  let sink := { sink with accepted := sink.accepted ++ bytes.take room }
  if room < bytes.length then .error .full sink else .ok () sink

theorem write_of_unlimited {sink : Sink} (h : sink.capacity = none) (bytes : List UInt8) :
    write bytes sink = .ok () { sink with accepted := sink.accepted ++ bytes } := by
  simp [write, room, h]

def flush : EStateM SinkFault Sink Unit := fun sink =>
  if sink.refusesFlush then .error .flushRefused sink else .ok () sink

end Sink

end ClassScript
