import ClassScript.Program
import ClassScript.Proofs.Scoping.Accepted
import Mathlib.Data.List.Nodup
import Mathlib.Data.List.Pairwise
import Mathlib.Data.List.Perm.Subperm

/-! The visits of an accepted program: the walk comes to each reference once, and notes there how
many scopes lie between the innermost and the first that knows the name. -/
namespace ClassScript

section Parts

variable {α : Type} {parts : α → List α} {own ids : α → List Nat} {a b b₁ b₂ : α} {i : Nat}

/-- What lies below something has no identity that is not among those of the whole. -/
theorem own_subset_ids (hp : ∀ a, (own a ++ (parts a).flatMap ids).Subperm (ids a))
    (h : Relation.ReflTransGen (fun a b => b ∈ parts a) a b) : own b ⊆ ids a := by
  induction h using Relation.ReflTransGen.head_induction_on with
  | refl => exact fun _ hi => (hp b).subset (List.mem_append_left _ hi)
  | head hm _ ih =>
    exact fun _ hi => (hp _).subset (List.mem_append_right _ (List.mem_flatMap.mpr ⟨_, hm, ih hi⟩))

/-- Where parts share no identity, what lies below something is told by any identity of its own. -/
theorem eq_of_mem_own (hp : ∀ a, (own a ++ (parts a).flatMap ids).Subperm (ids a))
    (hd : (ids a).Nodup)
    (h₁ : Relation.ReflTransGen (fun a b => b ∈ parts a) a b₁) (hi₁ : i ∈ own b₁)
    (h₂ : Relation.ReflTransGen (fun a b => b ∈ parts a) a b₂) (hi₂ : i ∈ own b₂) : b₁ = b₂ := by
  have disjoint {a : α} (hd : (ids a).Nodup) : (own a ++ (parts a).flatMap ids).Nodup := by
    obtain ⟨is, perm, sublist⟩ := hp a
    exact perm.nodup_iff.mp (sublist.nodup hd)
  induction h₁ using Relation.ReflTransGen.head_induction_on with
  | refl =>
    rcases h₂.cases_head with rfl | ⟨c, hc, below⟩
    · rfl
    · exact absurd rfl ((List.nodup_append.mp (disjoint hd)).2.2 i hi₁ i
        (List.mem_flatMap.mpr ⟨c, hc, own_subset_ids hp below hi₂⟩))
  | @head a c₁ hc₁ below₁ ih =>
    obtain ⟨-, apart, outside⟩ := List.nodup_append.mp (disjoint hd)
    rcases h₂.cases_head with rfl | ⟨c₂, hc₂, below₂⟩
    · exact absurd rfl (outside i hi₂ i
        (List.mem_flatMap.mpr ⟨c₁, hc₁, own_subset_ids hp below₁ hi₁⟩))
    · obtain ⟨each, apart⟩ := List.nodup_flatMap.mp apart
      have symm : Std.Symm (Function.onFun List.Disjoint ids) := ⟨fun _ _ h _ hx hy => h hy hx⟩
      have same : c₁ = c₂ := by
        by_contra hne
        exact apart.forall hc₁ hc₂ hne (own_subset_ids hp below₁ hi₁) (own_subset_ids hp below₂ hi₂)
      subst same
      exact ih (each c₁ hc₁) below₂

end Parts

/-- The reference that a node itself is. -/
def Expr.reference? : Expr → Option Reference
  | .var id name | .assign id name _ => some ⟨name.lexeme, id, name.line⟩
  | .thisRef id keyword => some ⟨"this", id, keyword.line⟩
  | .superMethod id keyword _ => some ⟨"super", id, keyword.line⟩
  | _ => none

namespace Scoping

variable {r : Resolution} {program : List Stmt} {P Q Q₁ Q₂ : Place}

/-- The identity of the node at the place, if it names a binding. -/
def Place.own : Place → List Nat
  | ⟨_, _, _, .expr e⟩ => identities e.reference?.toList
  | _ => []

theorem Place.after_ids (P : Place) (steps : Walk Unit) (f : Fragment) :
    ((P.after steps f).flatMap (·.fragment.ids)).Sublist f.ids := by
  unfold after
  split <;> simp

/-- Several parts after one another, as far as the walk comes. -/
theorem Place.flatMap_after_ids {α : Type} (P : Place) (steps : Walk Unit) (f : α → Fragment)
    (x : Option α) : ((x.toList.flatMap fun a => P.after steps (f a)).flatMap
      (·.fragment.ids)).Sublist (x.elim [] fun a => (f a).ids) := by
  cases x with
  | none => simp
  | some a => simpa using P.after_ids steps (f a)

/-- The parts of a place share no reference, and none of them has that of the place itself. -/
theorem Place.parts_ids (P : Place) :
    (P.own ++ P.parts.flatMap (·.fragment.ids)).Subperm P.fragment.ids := by
  obtain ⟨context, declared, p, f⟩ := P
  cases f with
  | expr e =>
    cases e with
    | literal | group | unary | property =>
      simp [parts, own, first, Fragment.ids, Fragment.references, Expr.reference?, Expr.references,
        List.Subperm.refl]
    | var | thisRef | superMethod =>
      simp [parts, own, Fragment.ids, Fragment.references, Expr.reference?, Expr.references,
        identities]
    | assign id name value =>
      simp only [parts, own, first, Fragment.ids, Fragment.references, Expr.reference?,
        Expr.references, identities_append, List.flatMap_cons, List.flatMap_nil, List.append_nil]
      exact List.perm_append_comm.subperm
    | binary left operator right | logical left operator right | call left operator right =>
      simp only [parts, own, first, Fragment.ids, Fragment.references, Expr.reference?,
        Expr.references, identities_append, List.flatMap_cons]
      exact (List.Sublist.append_left (after_ids _ _ _) _).subperm
    | setProperty object name value =>
      simp only [parts, own, first, Fragment.ids, Fragment.references, Expr.reference?,
        Expr.references, identities_append, List.flatMap_cons]
      refine (List.Sublist.append_left (after_ids _ _ _) _).subperm.trans ?_
      exact List.perm_append_comm.subperm
  | exprs es =>
    cases es with
    | nil => simp [parts, own, Fragment.ids, Fragment.references, Expr.referencesAll]
    | cons e es =>
      simp only [parts, own, first, Fragment.ids, Fragment.references, Expr.referencesAll,
        identities_append, List.flatMap_cons, List.nil_append]
      exact (List.Sublist.append_left (after_ids _ _ _) _).subperm
  | stmt s =>
    cases s with
    | expr | print | block =>
      simp [parts, own, first, inside, Fragment.ids, Fragment.references, Stmt.references,
        List.Subperm.refl]
    | letDecl name initializer | ret name initializer =>
      simp only [parts, own, Fragment.ids, Fragment.references, Stmt.references, List.nil_append]
      refine (flatMap_after_ids _ _ _ _).subperm.trans (List.Perm.subperm (.of_eq ?_))
      cases initializer <;> rfl
    | constDecl name initializer =>
      simp only [parts, own, Fragment.ids, Fragment.references, Stmt.references, List.nil_append]
      exact (after_ids _ _ _).subperm
    | cond condition thenBranch elseBranch =>
      simp only [parts, own, first, Fragment.ids, Fragment.references, Stmt.references,
        identities_append, List.flatMap_cons, List.flatMap_append, List.nil_append,
        List.append_assoc]
      refine (List.Sublist.append_left ((after_ids _ _ _).append ?_) _).subperm
      refine (flatMap_after_ids _ _ _ _).trans ?_
      cases elseBranch <;> simp [Stmt.referencesOption, Fragment.ids, Fragment.references]
    | loop condition body =>
      simp only [parts, own, first, Fragment.ids, Fragment.references, Stmt.references,
        identities_append, List.flatMap_cons, List.nil_append]
      exact (List.Sublist.append_left (after_ids _ _ _) _).subperm
    | function d =>
      simp only [parts, own, Fragment.ids, Fragment.references, Stmt.references, List.nil_append]
      exact (after_ids _ _ _).subperm
    | classDecl name superclass methods statics =>
      simp only [parts, own, Fragment.ids, Fragment.references, Stmt.references,
        identities_append, List.flatMap_append, List.nil_append, List.append_assoc]
      refine (List.Sublist.append ?_ ((after_ids _ _ _).append (after_ids _ _ _))).subperm
      refine (flatMap_after_ids _ _ _ _).trans ?_
      cases superclass <;> simp [Expr.referencesOption, Fragment.ids, Fragment.references]
  | stmts ss =>
    cases ss with
    | nil => simp [parts, own, Fragment.ids, Fragment.references, Stmt.referencesAll]
    | cons s ss =>
      simp only [parts, own, first, Fragment.ids, Fragment.references, Stmt.referencesAll,
        identities_append, List.flatMap_cons, List.nil_append]
      exact (List.Sublist.append_left (after_ids _ _ _) _).subperm
  | routine d =>
    obtain ⟨name, params, body⟩ := d
    simp only [parts, own, Fragment.ids, Fragment.references, FunctionDecl.references,
      List.nil_append]
    exact (after_ids _ _ _).subperm
  | methods kind ds =>
    cases ds with
    | nil => simp [parts, own, Fragment.ids, Fragment.references, FunctionDecl.referencesAll]
    | cons d ds =>
      simp only [parts, own, first, inside, Fragment.ids, Fragment.references,
        FunctionDecl.referencesAll, identities_append, List.flatMap_cons, List.nil_append]
      exact (List.Sublist.append_left (after_ids _ _ _) _).subperm

theorem Place.mem_own {e : Expr} {reference : Reference} (hf : P.fragment = .expr e)
    (hr : e.reference? = some reference) : reference.id ∈ P.own := by
  obtain ⟨_, _, _, _⟩ := P
  cases hf
  simp [own, hr, identities]

/-- A reference that the walk comes to below a place is one of the place's. -/
theorem Place.own_subset (h : Relation.ReflTransGen (fun P Q => Q ∈ P.parts) P Q) :
    Q.own ⊆ P.fragment.ids := own_subset_ids Place.parts_ids h

/-- Scope analysis accepts the program, which has the shape of one that was read, and finds these
distances. -/
structure Analyzed (program : List Stmt) (r : Resolution) : Prop where
  proper : Stmt.ProperAll program
  distinct : (identities (Stmt.referencesAll program)).Nodup
  accepted : analyze .empty program = ([], r)

namespace Analyzed

theorem of_source {source : List UInt8} {sink : Sink} (hp : parse source = .ok program)
    (ha : ((Machine.fresh sink).analyze program).1 = []) :
    Analyzed program ((Machine.fresh sink).analyze program).2.resolution := by
  obtain ⟨distinct, proper⟩ := parse_proper hp
  exact ⟨proper, distinct, Prod.ext ha rfl⟩

theorem start_accepted (h : Analyzed program r) : (Place.start program).Accepted r := by
  have ha := h.accepted
  simp only [analyze] at ha
  split at ha
  case h_2 => simp at ha
  case h_1 q hw =>
    obtain ⟨clean, rfl⟩ := Prod.mk.inj ha
    refine ⟨h.proper, .nil, fun _ => ⟨?_, ?_⟩, ?_, ⟨q, hw, clean, h.distinct, ?_, ?_⟩⟩
    · exact fun hc => absurd rfl hc
    · exact fun hc => nomatch hc
    · exact fun _ _ _ hd => nomatch hd
    · exact fun i _ => Resolution.distance?_empty i
    · exact fun _ _ => rfl

/-- Every place that the walk comes to is accepted. -/
theorem accepted_of_visits (h : Analyzed program r) (hP : Visits program P) : P.Accepted r := by
  induction hP with
  | refl => exact h.start_accepted
  | tail _ hm ih => exact ih.part hm

/-- The walk comes to a node that names a binding at one place only. -/
theorem visits_unique (h : Analyzed program r) {i : Nat} (h₁ : Visits program Q₁)
    (hi₁ : i ∈ Q₁.own) (h₂ : Visits program Q₂) (hi₂ : i ∈ Q₂.own) : Q₁ = Q₂ :=
  eq_of_mem_own (a := Place.start program) Place.parts_ids h.distinct h₁ hi₁ h₂ hi₂

end Analyzed

section Distance

variable {scopes : List Names} {name : String} {d : Nat}

/-- The scope at the distance of a name knows it, and none nearer does. -/
theorem distance?_eq_some (h : distance? name scopes = some d) :
    ∃ names, scopes[d]? = some names ∧ (names.lookup name).isSome ∧
      ∀ nearer ∈ scopes.take d, nearer.lookup name = none := by
  obtain ⟨hd, known, nearest⟩ := List.findIdx?_eq_some_iff_getElem.mp h
  refine ⟨_, List.getElem?_eq_getElem hd, known, ?_⟩
  intro nearer hm
  obtain ⟨i, hi, rfl⟩ := List.mem_take_iff_getElem.mp hm
  exact Option.not_isSome_iff_eq_none.mp (nearest i (Nat.lt_of_lt_of_le hi (Nat.min_le_left _ _)))

/-- A name without a distance is unknown in every scope. -/
theorem distance?_eq_none (h : distance? name scopes = none) :
    ∀ names ∈ scopes, names.lookup name = none := fun names hm =>
  Option.not_isSome_iff_eq_none.mp fun known => by
    simpa [known] using List.findIdx?_eq_none_iff.mp h names hm

/-- Some scope around the place knows the name, so there is a distance. -/
theorem Knows.distance (h : Knows scopes name) : ∃ d, distance? name scopes = some d := by
  obtain ⟨names, hm, hk⟩ := h
  exact Option.isSome_iff_exists.mp (List.findIdx?_isSome.trans (List.any_eq_true.mpr ⟨_, hm, hk⟩))

/-- A name that is not read in its own initializer is defined in the scope at its distance. -/
theorem Orderly.defined (h : Orderly scopes) (hd : distance? name scopes = some d)
    (hu : isUndefined name scopes = false) :
    ∃ names, scopes[d]? = some names ∧ names.lookup name = some true := by
  obtain ⟨names, hn, known, -⟩ := distance?_eq_some hd
  obtain ⟨defined, hl⟩ := Option.isSome_iff_exists.mp known
  refine ⟨names, hn, ?_⟩
  cases defined with
  | true => exact hl
  | false =>
    cases scopes with
    | nil => cases hn
    | cons first outer =>
      cases d with
      | zero =>
        cases hn
        simp [isUndefined, hl] at hu
      | succ d => exact absurd hl (h.outer names (List.mem_of_getElem? hn) name)

/-- The words of a receiver are never undefined. -/
theorem Orderly.words_defined (h : Orderly scopes) (hn : name = "this" ∨ name = "super") :
    isUndefined name scopes = false := by
  cases scopes with
  | nil => rfl
  | cons first outer =>
    have words := h.words first List.mem_cons_self
    rcases hn with rfl | rfl
    · simpa [isUndefined] using words.this
    · simpa [isUndefined] using words.super

end Distance

section Nodes

variable {context : Context} {declared : List (List String)} {p q : Progress}

theorem resolve_eq (id : Nat) (name : String) (p : Progress) : resolve id name p =
    .ok () (match distance? name p.scopes with
      | some distance => { p with resolution := p.resolution.note id distance }
      | none => p) := rfl

theorem resolve_accepted {id : Nat} {name : String}
    (h : Accepts r [id] (resolve id name) p q) : r.distance? id = distance? name p.scopes := by
  have hq := h.walked
  have agrees := h.agrees id (by simp)
  have fresh := h.fresh id (by simp)
  rw [agrees]
  rw [resolve_eq] at hq
  cases hd : distance? name p.scopes with
  | none =>
    rw [hd] at hq
    cases hq
    exact fresh
  | some d =>
    rw [hd] at hq
    cases hq
    simp [Resolution.distance?_note]

theorem var_accepted {id : Nat} {name : Token}
    (h : Place.Accepted r ⟨context, declared, p, .expr (.var id name)⟩) :
    isUndefined name.lexeme p.scopes = false ∧
      r.distance? id = distance? name.lexeme p.scopes := by
  obtain ⟨q, ha⟩ := h.walked
  have hw := ha.walked
  simp only [Fragment.walk, walkExpr] at hw
  obtain ⟨_, _, hg, hw⟩ := bind_ok.mp hw
  cases hg
  cases hu : isUndefined name.lexeme p.scopes with
  | true =>
    rw [hu] at hw
    cases hw
  | false =>
    rw [hu] at hw
    exact ⟨rfl, resolve_accepted ⟨hw, ha.clean, ha.distinct, ha.fresh, ha.agrees⟩⟩

theorem assign_accepted {id : Nat} {name : Token} {value : Expr}
    (h : Place.Accepted r ⟨context, declared, p, .expr (.assign id name value)⟩) :
    r.distance? id = distance? name.lexeme p.scopes := by
  obtain ⟨q, ha⟩ := h.walked
  simp only [Fragment.walk, Fragment.ids, Fragment.references, walkExpr, Expr.references,
    identities_append] at ha
  have noted : Leads (Notes [id]) (resolve id name.lexeme) := resolve_notes _ (by simp)
  obtain ⟨m, hv, hr⟩ := ha.sequence (Grows.of_notes (walkExpr_notes context value))
    (Grows.of_notes noted)
  rw [resolve_accepted hr, walkExpr_scopes hv.walked]

theorem this_accepted {id : Nat} {keyword : Token}
    (h : Place.Accepted r ⟨context, declared, p, .expr (.thisRef id keyword)⟩) :
    ∃ d, r.distance? id = some d ∧ distance? "this" p.scopes = some d := by
  obtain ⟨q, ha⟩ := h.walked
  have hw := ha.walked
  simp only [Fragment.walk, walkExpr] at hw
  split at hw
  · have clean := ha.clean
    cases hw
    simp at clean
  · rename_i hc
    obtain ⟨d, hd⟩ := ((h.receives trivial).this hc).distance
    have := resolve_accepted ⟨hw, ha.clean, ha.distinct, ha.fresh, ha.agrees⟩
    exact ⟨d, this.trans hd, hd⟩

theorem super_accepted {id : Nat} {keyword method : Token}
    (h : Place.Accepted r ⟨context, declared, p, .expr (.superMethod id keyword method)⟩) :
    ∃ d, r.distance? id = some d ∧ distance? "super" p.scopes = some d := by
  obtain ⟨q, ha⟩ := h.walked
  have hw := ha.walked
  simp only [Fragment.walk, walkExpr] at hw
  split at hw
  · rename_i hc
    obtain ⟨d, hd⟩ := ((h.receives trivial).super hc).distance
    have := resolve_accepted ⟨hw, ha.clean, ha.distinct, ha.fresh, ha.agrees⟩
    exact ⟨d, this.trans hd, hd⟩
  · have clean := ha.clean
    cases hw
    simp at clean

/-- Each node that names a binding has the distance of its name, if there is one. -/
theorem reference_accepted {e : Expr} {reference : Reference}
    (h : Place.Accepted r ⟨context, declared, p, .expr e⟩) (hr : e.reference? = some reference) :
    r.distance? reference.id = distance? reference.name p.scopes := by
  cases e with
  | var id name =>
    cases hr
    exact (var_accepted h).2
  | assign id name value =>
    cases hr
    exact assign_accepted h
  | thisRef id keyword =>
    cases hr
    obtain ⟨d, hd, hs⟩ := this_accepted h
    exact hd.trans hs.symm
  | superMethod id keyword method =>
    cases hr
    obtain ⟨d, hd, hs⟩ := super_accepted h
    exact hd.trans hs.symm
  | literal | group | unary | binary | logical | call | property | setProperty => cases hr

end Nodes

end Scoping

end ClassScript
