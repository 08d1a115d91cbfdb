import Std.Data.TreeMap

/-! The distances of references: for a node that names a binding, the number of scopes between the
scope it stands in and the scope of the binding. -/
namespace ClassScript

/-- The distances found so far, by the identity of the node. -/
structure Resolution where
  table : Std.TreeMap Nat Nat

namespace Resolution

def empty : Resolution := ⟨{}⟩

def distance? (r : Resolution) (id : Nat) : Option Nat := r.table[id]?

/-- Notes a distance, in place of an earlier one. -/
def note (r : Resolution) (id distance : Nat) : Resolution := ⟨r.table.insert id distance⟩

@[simp] theorem distance?_empty (id : Nat) : empty.distance? id = none := by
  simp [empty, distance?]

theorem distance?_note (r : Resolution) (id distance other : Nat) :
    (r.note id distance).distance? other =
      if id = other then some distance else r.distance? other := by
  simp [note, distance?, Std.TreeMap.getElem?_insert]

end Resolution

end ClassScript
