import ClassScript.Proofs.Scoping.WellFormed

/-! Walks without an error. What keeps the rules of static form is walked to its end, and nothing is
reported on the way. -/
namespace ClassScript

namespace Scoping

variable {p q : Progress} {w v : Walk Unit} {context : Context} {scopes : List Names}

/-- The walk ends by itself and reports nothing. -/
def Clean (w : Walk Unit) (p : Progress) : Prop := ∃ q, w p = .ok () q ∧ q.errors = p.errors

namespace Clean

theorem pure : Clean (pure ()) p := ⟨p, rfl, rfl⟩

theorem bind (hw : Clean w p) (hv : ∀ q, w p = .ok () q → Clean v q) :
    Clean (w >>= fun _ => v) p := by
  obtain ⟨m, hm, he⟩ := hw
  obtain ⟨q, hq, he'⟩ := hv m hm
  exact ⟨q, bind_ok.mpr ⟨(), m, hm, hq⟩, he'.trans he⟩

/-- Of two walks that end without an error together each does. -/
theorem sequence {is js : List Nat} (h : Clean (w >>= fun _ => v) p) (hw : Leads (Grows is) w)
    (hv : Leads (Grows js) v) : Clean w p ∧ ∃ q, Clean v q := by
  obtain ⟨q, hq, he⟩ := h
  obtain ⟨_, m, hm, hq⟩ := bind_ok.mp hq
  have first := (hw.ok hm).errors
  have second := (hv.ok hq).errors
  have same : m.errors = p.errors := (first.eq_of_length_le (he ▸ second).length_le).symm
  exact ⟨⟨m, hm, same⟩, m, q, hq, he.trans same.symm⟩

theorem resolve (id : Nat) (name : String) : Clean (resolve id name) p := by
  refine ⟨_, resolve_eq id name p, ?_⟩
  split <;> rfl

theorem declare {name : Token} (h : Free [name.lexeme] p.scopes) : Clean (declare name) p := by
  obtain ⟨scopes, errors, resolution⟩ := p
  cases scopes with
  | nil => exact ⟨_, rfl, rfl⟩
  | cons names outer =>
    have unknown := Free.singleton.mp h names rfl
    refine ⟨⟨marked name.lexeme false (names :: outer), errors, resolution⟩, ?_, rfl⟩
    simp only [Scoping.declare, get_bind, unknown]
    exact mark_eq name.lexeme false _

theorem define (name : Token) : Clean (define name) p := ⟨_, mark_eq name.lexeme true p, rfl⟩

theorem thenDefine {name : Token} (h : Clean w p) : Clean (thenDefine name w) p := by
  obtain ⟨q, hq, he⟩ := h
  refine ⟨{ q with scopes := marked name.lexeme true q.scopes }, ?_, he⟩
  simp only [Scoping.thenDefine, hq, Scoping.define, mark_eq]

theorem inScope {names : Names} (h : Clean w { p with scopes := names :: p.scopes }) :
    Clean (inScope names w) p := by
  obtain ⟨q, hq, he⟩ := h
  refine ⟨{ q with scopes := p.scopes }, ?_, he⟩
  simp only [Scoping.inScope, hq]

theorem isolated (h : Clean w p) : Clean (isolated w) p := by
  obtain ⟨q, hq, he⟩ := h
  refine ⟨q, ?_, he⟩
  simp only [Scoping.isolated, hq]

end Clean

/-- An accepted place is walked without an error. -/
theorem Place.Accepted.clean {r : Resolution} {P : Place} (h : P.Accepted r) :
    Clean (P.fragment.walk P.context) P.progress := by
  obtain ⟨q, ha⟩ := h.walked
  have grown := (P.fragment.walk_grows P.context).ok ha.walked
  have before : P.progress.errors = [] := List.prefix_nil.mp (ha.clean ▸ grown.errors)
  exact ⟨q, ha.walked, ha.clean.trans before.symm⟩

section Nodes

theorem clean_var {id : Nat} {name : Token} (h : isUndefined name.lexeme p.scopes = false) :
    Clean (walkExpr context (.var id name)) p := by
  simp only [Clean, walkExpr, get_bind, h]
  exact Clean.resolve id name.lexeme

theorem clean_thisRef {id : Nat} {keyword : Token} :
    Clean (walkExpr context (.thisRef id keyword)) p ↔ context.cls ≠ .none := by
  rw [walkExpr]
  split
  · rename_i h
    refine ⟨?_, fun hn => absurd h hn⟩
    rintro ⟨q, hq, he⟩
    cases hq
    simp at he
  · rename_i h
    exact ⟨fun _ => h, fun _ => .resolve id "this"⟩

theorem clean_superMethod {id : Nat} {keyword method : Token} :
    Clean (walkExpr context (.superMethod id keyword method)) p ↔ context.cls = .derived := by
  rw [walkExpr]
  split
  · rename_i h
    exact ⟨fun _ => h, fun _ => .resolve id "super"⟩
  · rename_i h
    refine ⟨?_, fun hn => absurd hn h⟩
    rintro ⟨q, hq, he⟩
    cases hq
    simp at he

theorem clean_checkReturn {keyword : Token} {value : Option Expr} :
    Clean (checkReturn context keyword value) p ↔
      context.body ≠ .none ∧ (context.body = .constructor → value = none) := by
  obtain ⟨body, cls⟩ := context
  cases body with
  | none =>
    refine ⟨?_, fun h => absurd rfl h.1⟩
    rintro ⟨q, hq, -⟩
    cases hq
  | function | method => exact ⟨fun _ => ⟨nofun, nofun⟩, fun _ => .pure⟩
  | constructor =>
    cases value with
    | none => exact ⟨fun _ => ⟨nofun, fun _ => rfl⟩, fun _ => .pure⟩
    | some e =>
      refine ⟨?_, fun h => nomatch h.2 rfl⟩
      rintro ⟨q, hq, he⟩
      cases hq
      simp at he

theorem clean_reportSelfInheritance {name token : Token} {id : Nat} :
    Clean (reportSelfInheritance name (some (.var id token))) p ↔ token.lexeme ≠ name.lexeme := by
  rw [reportSelfInheritance]
  split
  · rename_i h
    refine ⟨?_, fun hn => absurd h hn⟩
    rintro ⟨q, hq, he⟩
    cases hq
    simp at he
  · rename_i h
    exact ⟨fun _ => h, fun _ => .pure⟩

end Nodes

end Scoping

end ClassScript
