/-! Lists of named entries, of which the first with a name counts. -/
namespace ClassScript

theorem lookup_cons {α : Type} (entries : List (String × α)) (name other : String) (entry : α) :
    ((name, entry) :: entries).lookup other =
      if other = name then some entry else entries.lookup other := by
  by_cases same : other = name
  · simp [same]
  · simp [List.lookup_cons, same, beq_false_of_ne same]

/-- Lists with the same names have entries for the same names. -/
theorem isSome_lookup_congr {α β : Type} {xs : List (String × α)} {ys : List (String × β)}
    (h : xs.map Prod.fst = ys.map Prod.fst) (name : String) :
    (xs.lookup name).isSome = (ys.lookup name).isSome := by
  induction xs generalizing ys with
  | nil => simp [List.map_eq_nil_iff.mp h.symm]
  | cons x xs ih =>
    obtain ⟨y, ys, rfl, hn, hr⟩ := List.map_eq_cons_iff.mp h.symm
    rw [lookup_cons, lookup_cons, hn]
    split
    · rfl
    · exact ih hr.symm

end ClassScript
