import ClassScript.Proofs.Scoping.Surroundings

/-! The distances of an accepted program are those that its text shows: a node is as far from the
binding of its name as there are scopes around it that do not declare the name by then. -/
namespace ClassScript

open Machine (fresh)

namespace Scoping

variable {source : List UInt8} {sink : Sink} {program : List Stmt}

theorem Surrounded.distance_eq {r : Resolution} (h : Analyzed program r) {e : Expr}
    {reference : Reference} {around : List Enclosure} {context : Context} {scopes : List Names}
    (hs : Surrounded program (.expr e) around context scopes) (hr : e.reference? = some reference) :
    r.distance? reference.id = lexicalDistance? reference.name around := by
  obtain ⟨p, rfl, -, accepted⟩ := hs.reached.place h
  rw [reference_accepted accepted hr]
  exact Knowing.distance?_eq hs.known reference.name

/-- Only the references of a program get distances. -/
theorem distance?_analyze {id : Nat} (h : id ∉ identities (Stmt.referencesAll program)) :
    (analyze .empty program).2.distance? id = none := by
  have grown := (walkStmts_grows .top program ⟨[], [], .empty⟩).elsewhere id h
  unfold analyze
  cases hw : walkStmts .top program ⟨[], [], .empty⟩ with
  | ok u p | error e p =>
    rw [hw] at grown
    exact grown.trans (Resolution.distance?_empty id)

/-- A node of an accepted program has the distance that its enclosures give its name. Every
reference of the program is that of a node in some enclosures, and nothing else has a distance. -/
theorem distances_lexical (hp : parse source = .ok program)
    (ha : ((fresh sink).analyze program).1 = []) :
    (∀ e reference around, e.reference? = some reference → Stands program (.expr e) around →
      ((fresh sink).analyze program).2.resolution.distance? reference.id =
        lexicalDistance? reference.name around) ∧
    (∀ reference ∈ Stmt.referencesAll program, ∃ e around, e.reference? = some reference ∧
      Stands program (.expr e) around) ∧
    ∀ id, id ∉ identities (Stmt.referencesAll program) →
      ((fresh sink).analyze program).2.resolution.distance? id = none := by
  have analyzed := Analyzed.of_source hp ha
  refine ⟨?_, fun _ => Stands.node, fun _ => distance?_analyze⟩
  intro e reference around hr hs
  obtain ⟨_, _, surrounded⟩ := hs.surrounded analyzed
  exact surrounded.distance_eq analyzed hr

namespace Nested

/-- In a function of a method of a class in a block, a name of the block is read. -/
def text : List UInt8 := Text.encode
  "\x7b let a; class B extends a \x7b m(p) \x7b function f() \x7b return a; \x7d \x7d \x7d \x7d"

def word (text : String) : Token := ⟨.symbol .identifier, text, 1⟩

def node : Expr := .var 1 (word "a")

def function : FunctionDecl := ⟨word "f", [], [.ret ⟨.symbol .returnWord, "return", 1⟩ (some node)]⟩

def method : FunctionDecl := ⟨word "m", [word "p"], [.function function]⟩

def extended : Expr := .var 0 (word "a")

def body : List Stmt :=
  [.letDecl (word "a") none, .classDecl (word "B") (some extended) [method] []]

def statements : List Stmt := [.block body]

def enclosures : List Enclosure :=
  [⟨.function function, function.body⟩, ⟨.method (some extended) false method, method.body⟩,
    ⟨.block body, body⟩]

theorem stands : Stands statements (.expr node) enclosures := by
  have block : Stands statements (.stmt (.block body)) [] := .topLevel List.mem_cons_self
  have cls : Stands statements (.stmt (.classDecl (word "B") (some extended) [method] []))
      [⟨.block body, [.letDecl (word "a") none] ++ [_]⟩] := block.inside List.mem_cons_self rfl
  have inner : Stands statements (.stmt (.function function))
      [⟨.method (some extended) false method, [] ++ [_]⟩, ⟨.block body, body⟩] :=
    cls.inside List.mem_cons_self rfl
  have ret : Stands statements (.stmt (.ret ⟨.symbol .returnWord, "return", 1⟩ (some node)))
      (⟨.function function, [] ++ [_]⟩ :: _) := inner.inside List.mem_cons_self rfl
  exact ret.expression List.mem_cons_self

end Nested

theorem distances_lexical_in_function :
    parse Nested.text = .ok Nested.statements ∧
      ((fresh .unlimited).analyze Nested.statements).1 = [] ∧
      ((fresh .unlimited).analyze Nested.statements).2.resolution.distance? 1 = some 3 := by
  have parsed : parse Nested.text = .ok Nested.statements := by with_unfolding_all rfl
  have accepted : ((fresh .unlimited).analyze Nested.statements).1 = [] := by
    with_unfolding_all rfl
  exact ⟨parsed, accepted, (distances_lexical parsed accepted).1 _ _ _ rfl Nested.stands⟩

end Scoping

end ClassScript
