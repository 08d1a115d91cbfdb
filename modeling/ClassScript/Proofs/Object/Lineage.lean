import ClassScript.Object.Value
import Mathlib.Data.List.Basic

/-! The classes that a class descends from. They are a list, and a name is looked up along it: the
first class that has the name in its table decides. -/
namespace ClassScript.Class

/-- The classes of a chain. -/
def lineage : List ClassBody → List Class
  | [] => []
  | body :: behind => ⟨body, behind⟩ :: lineage behind

/-- A class and those that it descends from, the nearest first. -/
def line (c : Class) : List Class := lineage c.chain

theorem lineage_ancestors (c : Class) : lineage c.ancestors = (c.superclass.map line).getD [] := by
  obtain ⟨body, _ | ⟨first, behind⟩⟩ := c <;> rfl

theorem bodies_lineage (chain : List ClassBody) : (lineage chain).map Class.body = chain := by
  induction chain with
  | nil => rfl
  | cons body behind ih => rw [lineage, List.map_cons, ih]

theorem ids_line (c : Class) : c.line.map (·.body.id) = c.chain.map ClassBody.id := by
  rw [← bodies_lineage c.chain, List.map_map]
  rfl

theorem linked_lineage (chain : List ClassBody) :
    (lineage chain).IsChain fun c s => c.superclass = some s := by
  induction chain with
  | nil => exact .nil
  | cons body behind ih =>
    cases behind with
    | nil => exact .singleton _
    | cons first behind => exact .cons_cons rfl ih

theorem superclass_getLast {chain : List ClassBody} {c : Class}
    (h : (lineage chain).getLast? = some c) : c.superclass = none := by
  induction chain with
  | nil => cases h
  | cons body behind ih =>
    cases behind with
    | nil =>
      cases h
      rfl
    | cons first behind => exact ih (by rwa [lineage, lineage, List.getLast?_cons_cons] at h)

/-- The superclasses of a class are a finite line in which every class is newer than those behind
it. -/
structure Linear (c : Class) : Prop where
  starts : c.line.head? = some c
  linked : c.line.IsChain fun k s => k.superclass = some s
  ends : ∀ k ∈ c.line.getLast?, k.superclass = none
  newer : (c.line.map (·.body.id)).Pairwise (· > ·)

/-- The classes behind a class are older. -/
theorem Linear.older {c k : Class} (h : c.Linear) (hk : k ∈ (c.superclass.map line).getD []) :
    k.body.id < c.body.id := by
  have newer := h.newer
  rw [line, chain, lineage, lineage_ancestors, List.map_cons] at newer
  exact List.rel_of_pairwise_cons newer (List.mem_map_of_mem hk)

/-- Of the classes this is the first one that has the name in its table, and this is its entry. -/
structure First (table : ClassBody → MethodTable) (name : String) (classes : List Class) (c : Class)
    (method : Closure) : Prop where
  split : ∃ front behind, classes = front ++ c :: behind ∧
    ∀ nearer ∈ front, (table nearer.body).lookup name = none
  entry : (table c.body).lookup name = some method

section First

variable {table : ClassBody → MethodTable} {name : String} {chain : List ClassBody} {c : Class}
  {method : Closure}

theorem First.mem {classes : List Class} (h : First table name classes c method) : c ∈ classes := by
  obtain ⟨front, behind, rfl, -⟩ := h.split
  exact List.mem_append_right _ List.mem_cons_self

theorem first_cons {body : ClassBody} :
    First table name (lineage (body :: chain)) c method ↔
      (table body).lookup name = some method ∧ c = ⟨body, chain⟩ ∨
        (table body).lookup name = none ∧ First table name (lineage chain) c method := by
  constructor
  · rintro ⟨⟨_ | ⟨nearest, front⟩, behind, split, without⟩, entry⟩
    · cases split
      exact .inl ⟨entry, rfl⟩
    · obtain ⟨rfl, rest⟩ := List.cons.inj split
      exact .inr ⟨without _ List.mem_cons_self,
        ⟨front, behind, rest, fun j hj => without j (List.mem_cons_of_mem _ hj)⟩, entry⟩
  · rintro (⟨entry, rfl⟩ | ⟨none, ⟨front, behind, split, without⟩, entry⟩)
    · exact ⟨⟨[], lineage chain, rfl, nofun⟩, entry⟩
    · exact ⟨⟨⟨body, chain⟩ :: front, behind, congrArg _ split,
        List.forall_mem_cons.mpr ⟨none, without⟩⟩, entry⟩

theorem First.suffix (h : First table name (lineage chain) c method) : c.chain <:+ chain := by
  induction chain with
  | nil => cases h.mem
  | cons body behind ih =>
    rcases first_cons.mp h with ⟨-, rfl⟩ | ⟨-, rest⟩
    · exact List.suffix_rfl
    · exact (ih rest).trans (List.suffix_cons body behind)

/-- What is found is the entry of the first class that has one, and the superclass of this class. -/
theorem findIn_eq_some_iff {found : FoundMethod} : findIn table name chain = some found ↔
    ∃ c, First table name (lineage chain) c found.method ∧ found.superclass = c.superclass := by
  induction chain with
  | nil =>
    refine ⟨nofun, ?_⟩
    rintro ⟨c, first, -⟩
    cases first.mem
  | cons body behind ih =>
    simp only [first_cons]
    rw [findIn]
    obtain ⟨method, superclass⟩ := found
    cases hl : (table body).lookup name with
    | none => simpa using ih
    | some entry =>
      constructor
      · rintro ⟨⟩
        exact ⟨_, .inl ⟨rfl, rfl⟩, rfl⟩
      · rintro ⟨c, ⟨⟨⟩, rfl⟩ | ⟨⟨⟩, -⟩, rfl⟩
        rfl

/-- In a chain a class is told by what it extends. -/
theorem eq_of_suffix {k : Class} (hc : c.chain <:+ chain) (hk : k.chain <:+ chain)
    (h : c.superclass = k.superclass) : c = k := by
  obtain ⟨body, behind⟩ := c
  obtain ⟨body', behind'⟩ := k
  obtain rfl : behind = behind' := by
    cases behind <;> cases behind' <;> cases h <;> rfl
  have equal : body :: behind = body' :: behind :=
    (List.suffix_of_suffix_length_le hc hk (Nat.le_refl _)).eq_of_length rfl
  cases equal
  rfl

/-- A class of the chain decides if what is found has its superclass. -/
theorem first_of_suffix (hc : c.chain <:+ chain)
    (h : findIn table name chain = some ⟨method, c.superclass⟩) :
    First table name (lineage chain) c method := by
  obtain ⟨k, first, superclass⟩ := findIn_eq_some_iff.mp h
  cases eq_of_suffix hc first.suffix superclass
  exact first

/-- Nothing is found only if no class has an entry. -/
theorem findIn_eq_none_iff : findIn table name chain = none ↔
    ∀ c ∈ lineage chain, (table c.body).lookup name = none := by
  induction chain with
  | nil => simp [findIn, lineage]
  | cons body behind ih =>
    rw [findIn, lineage, List.forall_mem_cons, ← ih]
    cases (table body).lookup name <;> simp

/-- What is found is the entry of the first class in the line that has one, with the superclass of
that class. Nothing is found if no class has an entry. -/
def Decides (table : ClassBody → MethodTable) (c : Class) (name : String) : Option FoundMethod →
    Prop
  | some found => ∃ k, First table name c.line k found.method ∧ found.superclass = k.superclass
  | none => ∀ k ∈ c.line, (table k.body).lookup name = none

theorem findIn_decides (table : ClassBody → MethodTable) (c : Class) (name : String) :
    c.Decides table name (findIn table name c.chain) := by
  cases hf : findIn table name c.chain with
  | none => exact findIn_eq_none_iff.mp hf
  | some found => exact findIn_eq_some_iff.mp hf

/-- The classes that have the name in their own tables. -/
def definers (table : ClassBody → MethodTable) (name : String) (classes : List Class) :
    List Class :=
  classes.filter fun c => ((table c.body).lookup name).isSome

/-- Behind the first class that has the name are those that it descends from. -/
theorem First.definers_eq (h : First table name (lineage chain) c method) :
    definers table name (lineage chain) =
    c :: definers table name ((c.superclass.map line).getD []) := by
  rw [← lineage_ancestors]
  induction chain with
  | nil => cases h.mem
  | cons body behind ih =>
    rcases first_cons.mp h with ⟨entry, rfl⟩ | ⟨none, rest⟩
    · exact List.filter_cons_of_pos (by simp [entry])
    · rw [← ih rest]
      exact List.filter_cons_of_neg (by simp [none])

theorem First.unique {k : Class} {entry : Closure} (h : First table name (lineage chain) c method)
    (hk : First table name (lineage chain) k entry) : c = k :=
  (List.cons.inj (h.definers_eq.symm.trans hk.definers_eq)).1

theorem definers_eq_nil_iff : definers table name (lineage chain) = [] ↔
    findIn table name chain = none := by
  rw [findIn_eq_none_iff, definers, List.filter_eq_nil_iff]
  exact forall₂_congr fun c _ => Option.not_isSome_iff_eq_none

end First

end ClassScript.Class
