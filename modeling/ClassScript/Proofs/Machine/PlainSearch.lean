import ClassScript.Proofs.Machine.Causes
import ClassScript.Proofs.Machine.Lockstep
import ClassScript.Proofs.Machine.Outermost
import ClassScript.Proofs.Machine.Untracked
import ClassScript.Proofs.Scoping.Clean
import ClassScript.Proofs.Scoping.Unique
import ClassScript.Proofs.Store.Chains

/-! Runs of programs in which no two declarations introduce the same name. Distances change nothing
in them: the nearest scope that binds a name is the one at the distance of the node. -/
namespace ClassScript

open Scoping (Place Names Apart Covers Knowing IsReceiver Enclosure isUndefined)

namespace Machine

variable {source : List UInt8} {sink : Sink} {program : List Stmt} {now : Moment} {m : Machine}
  {r : Resolution} {layout : List (List String)} {P : Place} {e : Expr} {reference : Reference}
  {name : String} {d : Nat} {scope : ScopeId}

/-- What is known of the scopes around a place in a program whose names are unique. -/
structure Around (program : List Stmt) (P : Place) : Prop where
  apart : Apart P.declared
  top : ∀ xs ∈ P.declared, ∀ x ∈ xs, x ∈ Stmt.declaredAll program → IsReceiver x
  covers : List.Forall₂ (fun names xs => (∀ x, (names.lookup x).isSome → x ∈ xs) ∧
    ∀ x ∈ xs, IsReceiver x → (names.lookup x).isSome) P.progress.scopes P.declared
  receiver : P.fragment.Inner → P.context.cls = .derived →
    Scoping.distance? "this" P.progress.scopes = Scoping.distance? "super" P.progress.scopes

theorem covers_scopes {scopes : List Names} {known declared : List (List String)}
    (hk : Knowing scopes known) (hc : Covers known declared) :
    List.Forall₂ (fun names xs => (∀ x, (names.lookup x).isSome → x ∈ xs) ∧
      ∀ x ∈ xs, IsReceiver x → (names.lookup x).isSome) scopes declared := by
  induction hk generalizing declared with
  | nil =>
    cases hc
    exact .nil
  | cons hn _ ih =>
    cases hc with
    | cons hx ho =>
      refine .cons ⟨fun x h => hx.1 ((hn x).mp h), fun x h hw => (hn x).mpr (hx.2 x h hw)⟩ (ih ho)

theorem Around.cover (h : Around program P) {i : Nat} {names : Names} {xs : List String}
    (hn : P.progress.scopes[i]? = some names) (hx : P.declared[i]? = some xs) :
    (∀ x, (names.lookup x).isSome → x ∈ xs) ∧
      ∀ x ∈ xs, IsReceiver x → (names.lookup x).isSome := by
  obtain ⟨hi, rfl⟩ := List.getElem?_eq_some_iff.mp hn
  obtain ⟨hj, rfl⟩ := List.getElem?_eq_some_iff.mp hx
  exact h.covers.get hi hj

/-- Of two scopes around the place that declare a name the name is a word for a receiver. -/
theorem Around.shared (h : Around program P) {i j : Nat} {xs ys : List String} (hij : i < j)
    (hx : P.declared[i]? = some xs) (hy : P.declared[j]? = some ys) (hn : name ∈ xs)
    (hm : name ∈ ys) : IsReceiver name := by
  obtain ⟨hi, rfl⟩ := List.getElem?_eq_some_iff.mp hx
  obtain ⟨hj, rfl⟩ := List.getElem?_eq_some_iff.mp hy
  exact List.pairwise_iff_getElem.mp h.apart i j hi hj hij name hn hm

namespace Evaluates

theorem around (h : Evaluates program r layout m P e) (hr : e.reference? = some reference)
    (hu : Unique program) : Around program P := by
  obtain ⟨around, stands, declared, surrounded⟩ :=
    Scoping.Visits.stands h.analyzed h.visits h.fragment hr
  have proper := (stands.proper h.analyzed.proper).2
  obtain ⟨apart, top⟩ := stands.apart h.analyzed.proper hu
  have known : Knowing P.progress.scopes (around.flatMap Enclosure.scopes) := surrounded.known
  refine ⟨declared ▸ apart, declared ▸ top, ?_, fun hi hc => ?_⟩
  · rw [declared]
    exact covers_scopes known (Scoping.covers_around proper)
  · rw [known.distance?_eq, known.distance?_eq]
    exact Scoping.receiver_distance proper (surrounded.context_eq (h.fragment ▸ hi) ▸ hc)

/-- The scope at the distance of a name is the nearest that binds the name, if it binds it. -/
theorem nearest (h : Evaluates program r layout m P e) (ha : Around program P)
    (hd : Scoping.distance? name P.progress.scopes = some d)
    (hs : m.scopes.ancestor? m.current d = some scope)
    (hb : (m.scopes.binding? scope name).isSome) :
    m.scopes.holder? name m.current = some scope := by
  obtain ⟨names, hn, -, nearest⟩ := Scoping.distance?_eq_some hd
  obtain ⟨_, xs, hs', -, hx, -, binds⟩ := h.mirrored.position d names hn
  cases hs.symm.trans hs'
  refine Scopes.holder?_of_nearest h.tidy.outward ⟨hs, hb, fun i hi s hi' hb' => ?_⟩
  have inside : i < P.progress.scopes.length :=
    Nat.lt_trans hi (List.getElem?_eq_some_iff.mp hn).1
  have hn' := List.getElem?_eq_getElem inside
  obtain ⟨_, ys, hs'', -, hy, -, binds'⟩ := h.mirrored.position i _ hn'
  cases hi'.symm.trans hs''
  -- a nearer scope that binds the name declares it, so that the walk knew the name there
  have word := ha.shared hi hy hx (binds' name hb') (binds name hb)
  have known := (ha.cover hn' hy).2 name (binds' name hb') word
  have unknown := nearest _ (List.mem_take_iff_getElem.mpr ⟨i, by omega, rfl⟩)
  rw [unknown] at known
  cases known

/-- In its own initializer a name is not bound anywhere. -/
theorem nowhere (h : Evaluates program r layout m P e) (ha : Around program P)
    (ho : Outermost program m) (hn : ¬ IsReceiver name)
    (hu : isUndefined name P.progress.scopes = true)
    (hb : m.scopes.binding? m.current name = none) : m.scopes.holder? name m.current = none := by
  by_contra hh
  obtain ⟨holder, hh⟩ := Option.ne_none_iff_exists'.mp hh
  cases hs : P.progress.scopes with
  | nil => simp [hs, isUndefined] at hu
  | cons names outer =>
    have first : P.progress.scopes[0]? = some names := by rw [hs]; rfl
    obtain ⟨_, xs, -, -, hx, -, -⟩ := h.mirrored.position 0 names first
    have declared : name ∈ xs := by
      refine (ha.cover first hx).1 name ?_
      rw [hs] at hu
      simp only [isUndefined, beq_iff_eq] at hu
      rw [hu]
      rfl
    rcases holder_of_mirrors h.standing.mirrors h.tidy hh with ⟨i, hi, hs', -, bound⟩ | ⟨outside, -⟩
    · cases i with
      | zero =>
        cases hs'
        rw [hb] at bound
        cases bound
      | succ i =>
        have hn' := List.getElem?_eq_getElem hi
        obtain ⟨_, ys, hs'', -, hy, -, binds⟩ := h.mirrored.position (i + 1) _ hn'
        cases hs'.symm.trans hs''
        exact hn (ha.shared i.succ_pos hx hy declared (binds name bound))
    · have bound := Scopes.holder?_binds hh
      rcases outside with rfl | rfl
      · exact hn (ha.top xs (List.mem_of_getElem? hx) name declared (ho.topLevel name bound))
      · rw [ho.globals name] at bound
        cases bound

end Evaluates

section Lookups

variable {id line : Nat} {b : Binding} {v : Value}

theorem lookup_plain (m : Machine) :
    lookup id name line m.plain = onScopes line (Scopes.read m.current name) m.plain := by
  simp [lookup_eq, plain]

theorem assign_plain {token : Token} (m : Machine) : assign id token v m.plain =
    onScopes token.line (Scopes.assign m.current token.lexeme v) m.plain := by
  simp [assign_eq, plain]

/-- Without a distance there is nothing to leave out. -/
theorem lookup_alike_of_untracked (hd : m.resolution.distance? id = none) :
    Alike (lookup id name line) m := by
  rw [Alike, lookup_plain, lookup_eq, hd]
  exact Alike.onScopes _ _

theorem assign_alike_of_untracked {token : Token} (hd : m.resolution.distance? id = none) :
    Alike (assign id token v) m := by
  rw [Alike, assign_plain, assign_eq, hd]
  exact Alike.onScopes _ _

/-- The binding at the distance is that in the nearest scope. -/
def Nearest (m : Machine) (id : Nat) (name : String) : Prop :=
  ∀ d scope, m.resolution.distance? id = some d → m.scopes.ancestor? m.current d = some scope →
    (m.scopes.binding? scope name).isSome → m.scopes.holder? name m.current = some scope

theorem Tracked.lookup_alike (h : Tracked m id name b) (hn : Nearest m id name) :
    Alike (Machine.lookup id name line) m := by
  have read := h.lookup line
  obtain ⟨d, scope, hd, hs, hb⟩ := h
  have holder := hn d scope hd hs (by rw [hb]; rfl)
  rw [Alike, lookup_plain, read, onScopes_eq, Scopes.read_eq]
  simp only [plain, holder, Scopes.readIn_eq, hb]
  rfl

/-- An assignment at a distance to the nearest scope that binds the name. -/
theorem Tracked.assign_alike {token : Token} (h : Tracked m id token.lexeme b)
    (hn : Nearest m id token.lexeme) : Alike (assign id token v) m := by
  obtain ⟨d, scope, hd, hs, hb⟩ := h
  have holder := hn d scope hd hs (by rw [hb]; rfl)
  have plainly : assign id token v m.plain =
      onScopes token.line (Scopes.assignIn scope token.lexeme v) m.plain := by
    rw [assign_plain, onScopes_eq, onScopes_eq, Scopes.assign_eq]
    simp only [plain, holder]
  rw [Alike, assign_at hd hs, plainly]
  exact Alike.onScopes _ _

end Lookups

namespace Evaluates

theorem nearest_distance (h : Evaluates program r layout m P e) (ha : Around program P)
    (hr : e.reference? = some reference) : Nearest m reference.id reference.name :=
  fun _ _ hd hs hb => h.nearest ha (h.distance_eq hr ▸ hd) hs hb

variable {id depth : Nat}

theorem var_alike {name : Token} (h : Evaluates program r layout m P (.var id name))
    (ha : Around program P) : Alike (lookup id name.lexeme name.line) m := by
  cases hd : m.resolution.distance? id with
  | none => exact lookup_alike_of_untracked hd
  | some d =>
    obtain ⟨b, hb⟩ := h.var_tracked (hd ▸ rfl)
    exact hb.lookup_alike (h.nearest_distance ha rfl)

theorem this_alike {keyword : Token} (h : Evaluates program r layout m P (.thisRef id keyword))
    (ha : Around program P) : Alike (lookup id "this" keyword.line) m := by
  obtain ⟨b, hb⟩ := h.this_tracked
  exact hb.lookup_alike (h.nearest_distance ha rfl)

theorem super_alike {keyword method : Token}
    (h : Evaluates program r layout m P (.superMethod id keyword method)) (ha : Around program P) :
    Alike (superMember id keyword method) m := by
  obtain ⟨c, b, hs, ht⟩ := h.super_tracked
  have clean :
      Scoping.Clean (Scoping.walkExpr P.context (.superMethod id keyword method)) P.progress :=
    h.accepted.clean
  have derived := Scoping.clean_superMethod.mp clean
  have receiver : Nearest m id "this" := fun d scope hd hs hb => by
    have reference : (Expr.superMethod id keyword method).reference? =
      some ⟨"super", id, keyword.line⟩ := rfl
    have distance := h.distance_eq reference ▸ hd
    exact h.nearest ha ((ha.receiver (h.fragment ▸ trivial) derived).trans distance) hs hb
  refine (hs.lookup_alike (h.nearest_distance ha rfl)).bind fun superclass m₁ h₁ => ?_
  cases (hs.lookup keyword.line).symm.trans h₁
  refine (ht.lookup_alike receiver).bind fun receiver m₂ _ => ?_
  exact alike_compositional.inherited _ _ _ _ _

theorem assign_alike {name : Token} {value : Expr} {v : Value} {m₁ : Machine}
    (h : Evaluates program r layout m P (.assign id name value)) (ha : Around program P)
    (ho : Outermost program m) (hv : evaluate depth value m = .ok v m₁) :
    Alike (assign id name v) m₁ := by
  obtain ⟨layout', h₁⟩ := h.assigned hv
  have unchanged := ((perform_frame depth (.expr value)).ok hv).unchanged
  have outermost : Outermost program m₁ := ho.keep unchanged.steady fun _ _ => False.elim
  cases hd : m₁.resolution.distance? id with
  | none => exact assign_alike_of_untracked hd
  | some d =>
    cases hu : isUndefined name.lexeme P.progress.scopes with
    | false =>
      obtain ⟨b, hb⟩ := h₁.tracked rfl hd hu
      exact hb.assign_alike (h₁.nearest_distance ha rfl)
    | true =>
      have name_word : ¬ IsReceiver name.lexeme := fun hw => by
        rw [h₁.orderly.words_defined hw] at hu
        cases hu
      obtain ⟨rfl, unbound⟩ := h₁.unbound hd hu
      have holder := h₁.nowhere ha outermost name_word hu unbound
      rw [Alike, assign_at hd rfl, assignIn_unbound unbound, assign_plain, onScopes_eq,
        Scopes.assign_eq]
      simp only [plain, holder]
      rfl

end Evaluates

/-- At every moment of a run of a program whose names are unique the look-ups come to the same
without distances. -/
theorem Happens.agrees (h : Happens source sink program now) (hu : Unique program) :
    now.Agrees := by
  have outermost : Outermost program now.machine := occurs_outermost h.occurs
  refine ⟨?_, ?_, ?_, ?_⟩
  · intro id name he
    obtain ⟨r, layout, P, ev⟩ := h.evaluates he
    exact ev.var_alike (ev.around rfl hu)
  · intro id keyword he
    obtain ⟨r, layout, P, ev⟩ := h.evaluates he
    exact ev.this_alike (ev.around rfl hu)
  · intro id keyword method he
    obtain ⟨r, layout, P, ev⟩ := h.evaluates he
    exact ev.super_alike (ev.around rfl hu)
  · intro depth id name value v m _ he hv
    obtain ⟨r, layout, P, ev⟩ := h.evaluates he
    exact ev.assign_alike (ev.around rfl hu) outermost hv

/-- An accepted program in which no two declarations introduce the same name runs the same on a
fresh machine with the distances of its references and on one without: it ends in the same way, with
the same output, in the same state but for the distances. -/
theorem run_without_distances (hp : parse source = .ok program)
    (ha : ((fresh sink).analyze program).1 = []) (hu : Unique program) (depth : Nat) :
    withoutDistances (interpret depth program ((fresh sink).analyze program).2) =
      interpret depth program (fresh sink) := by
  have alike : Alike (executeAll depth program) ((fresh sink).analyze program).2 :=
    perform_alike depth (.stmts program) _ fun now hn => Happens.agrees ⟨hp, ha, depth, hn⟩ hu
  have executed := alike.bind fun _ _ _ => Alike.pure ()
  rw [interpret_eq]
  exact executed.bind fun _ _ _ => Alike.onSink _

namespace Distinct

/-- A function that assigns to a name of a block around it, which is bound by then. -/
def text : List UInt8 := Text.encode
  "\x7b let a = null; function f(p) \x7b a = p; return a; \x7d print f(true); \x7d"

def assignment : Expr := .assign 2 (word "a") (.var 1 (word "p"))

def routine : FunctionDecl := ⟨word "f", [word "p"],
  [.expr assignment, .ret ⟨.symbol .returnWord, "return", 1⟩ (some (.var 3 (word "a")))]⟩

def statements : List Stmt := [.block
    [.letDecl (word "a") (some (.literal .null)), .function routine,
  .print (.call (.var 4 (word "f")) closing [.literal (.bool true)])]]

end Distinct

theorem run_without_distances_in_block :
    parse Distinct.text = .ok Distinct.statements ∧
      ((fresh .unlimited).analyze Distinct.statements).1 = [] ∧ Unique Distinct.statements ∧
      withoutDistances (interpret 20 Distinct.statements
          ((fresh .unlimited).analyze Distinct.statements).2) =
        interpret 20 Distinct.statements (fresh .unlimited) := by
  have parsed : parse Distinct.text = .ok Distinct.statements := by with_unfolding_all rfl
  have accepted : ((fresh .unlimited).analyze Distinct.statements).1 = [] := by
    with_unfolding_all rfl
  have unique : Unique Distinct.statements := by
    have names : Stmt.introducedAll Distinct.statements = ["a", "f", "p"] := by
      with_unfolding_all rfl
    rw [Unique, names]
    decide
  exact ⟨parsed, accepted, unique, run_without_distances parsed accepted unique 20⟩

end Machine

end ClassScript
