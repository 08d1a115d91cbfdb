import ClassScript.Proofs.Scoping.Enclosures

/-! The positions in a program. In a program whose references have identities of their own, a node
that names a binding stands in one place. -/
namespace ClassScript

namespace Scoping

/-- A part of a program and what it stands in, the innermost first. -/
structure Position where
  fragment : Fragment
  around : List Enclosure

namespace Position

/-- Where the statements of a body stand that are behind the ones in front. -/
def ofBody (frame : Frame) (around : List Enclosure) (front : List Stmt) : List Stmt → List Position
  | [] => []
  | s :: behind =>
    ⟨.stmt s, ⟨frame, front ++ [s]⟩ :: around⟩ :: ofBody frame around (front ++ [s]) behind

def parts : Position → List Position
  | ⟨.expr e, around⟩ => e.operands.map fun operand => ⟨.expr operand, around⟩
  | ⟨.stmt s, around⟩ =>
    (s.expressions.map fun e => ⟨.expr e, around⟩) ++
    ((s.branches.map fun b => ⟨.stmt b, around⟩) ++
      s.frames.flatMap fun frame => ofBody frame around [] frame.body)
  | ⟨.stmts ss, around⟩ => ss.map fun s => ⟨.stmt s, around⟩
  | ⟨.exprs _, _⟩ | ⟨.routine _, _⟩ | ⟨.methods _ _, _⟩ => []

/-- The identity of the node at the position, if it names a binding. -/
def own : Position → List Nat
  | ⟨.expr e, _⟩ => identities e.reference?.toList
  | _ => []

variable {frame : Frame} {around : List Enclosure}

theorem mem_ofBody {s : Stmt} (front behind : List Stmt) :
    ⟨.stmt s, ⟨frame, front ++ [s]⟩ :: around⟩ ∈ ofBody frame around [] (front ++ s :: behind) := by
  suffices h : ∀ before, ⟨.stmt s, ⟨frame, before ++ front ++ [s]⟩ :: around⟩ ∈
      ofBody frame around before (front ++ s :: behind) from h []
  induction front with
  | nil => intro before; simp [ofBody]
  | cons first front ih =>
    intro before
    have later := ih (before ++ [first])
    rw [List.append_assoc before, List.singleton_append] at later
    exact List.mem_cons_of_mem _ later

theorem ofBody_ids (front ss : List Stmt) :
    (ofBody frame around front ss).flatMap (·.fragment.ids) =
      identities (Stmt.referencesAll ss) := by
  induction ss generalizing front with
  | nil => simp [ofBody, Stmt.referencesAll]
  | cons s ss ih =>
    rw [ofBody, List.flatMap_cons, ih, Stmt.referencesAll, identities_append]
    rfl

/-- The parts of a part share no reference, and none of them has that of the part itself. -/
theorem parts_ids (P : Position) :
    (P.own ++ P.parts.flatMap (·.fragment.ids)).Subperm P.fragment.ids := by
  obtain ⟨f, around⟩ := P
  cases f with
  | expr e =>
    have ids : (Fragment.expr e).ids = (parts ⟨.expr e, around⟩).flatMap (·.fragment.ids) ++
        own ⟨.expr e, around⟩ := by
      simp [Fragment.ids, Fragment.references, Expr.references_eq e, identities, parts, own,
        List.map_flatMap, List.flatMap_map]
    rw [ids]
    exact List.perm_append_comm.subperm
  | stmt s =>
    have bodies :
        (s.frames.flatMap fun frame => ofBody frame around [] frame.body).flatMap
          (·.fragment.ids) =
        s.frames.flatMap fun frame => identities (Stmt.referencesAll frame.body) := by
      simp only [List.flatMap_assoc, ofBody_ids]
    refine (List.Perm.of_eq ?_).subperm
    rw [parts, List.flatMap_append, List.flatMap_append, bodies]
    simp [Fragment.ids, Fragment.references, Stmt.references_eq s, identities, own,
      List.map_flatMap, List.flatMap_map]
  | stmts ss =>
    refine (List.Perm.of_eq ?_).subperm
    simp [Fragment.ids, Fragment.references, Stmt.referencesAll_eq, identities, parts, own,
      List.map_flatMap, List.flatMap_map]
  | exprs | routine | methods => exact List.nil_subperm

end Position

variable {program : List Stmt} {f : Fragment} {around around' : List Enclosure} {e e' : Expr}

/-- What stands in a program is below it. -/
theorem Stands.position (h : Stands program f around) :
    Relation.ReflTransGen (fun P Q => Q ∈ P.parts) ⟨.stmts program, []⟩ (Position.mk f around) := by
  induction h with
  | topLevel hs => exact .single (List.mem_map_of_mem hs)
  | @inside outer around frame front s behind _ hf hb ih =>
    refine ih.tail (List.mem_append_right _ (List.mem_append_right _ ?_))
    refine List.mem_flatMap.mpr ⟨frame, hf, ?_⟩
    rw [hb]
    exact Position.mem_ofBody front behind
  | branch _ hb ih =>
    exact ih.tail (List.mem_append_right _ (List.mem_append_left _ (List.mem_map_of_mem hb)))
  | expression _ he ih => exact ih.tail (List.mem_append_left _ (List.mem_map_of_mem he))
  | operand _ he ih => exact ih.tail (List.mem_map_of_mem he)

/-- A node that names a binding stands in one place, which its identity tells. -/
theorem Stands.unique (h : Stands program (.expr e) around) (h' : Stands program (.expr e') around')
    (hd : (identities (Stmt.referencesAll program)).Nodup) {reference reference' : Reference}
    (hr : e.reference? = some reference) (hr' : e'.reference? = some reference')
    (same : reference.id = reference'.id) : e = e' ∧ around = around' := by
  have here {e : Expr} {around : List Enclosure} {reference : Reference}
      (hr : e.reference? = some reference) : reference.id ∈ Position.own ⟨.expr e, around⟩ := by
    simp [Position.own, hr, identities]
  have one := eq_of_mem_own (a := Position.mk (.stmts program) []) Position.parts_ids hd h.position
    (here hr) h'.position (same ▸ here hr')
  cases one
  exact ⟨rfl, rfl⟩

end Scoping

end ClassScript
