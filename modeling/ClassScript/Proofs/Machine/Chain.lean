import ClassScript.Proofs.Machine.Soundness

/-! The chain of scopes in which a node that names a binding is evaluated. From the current scope up
to the top level there is one scope for each scope that the walk had around the node. -/
namespace ClassScript

open Scoping (Place Visits Analyzed)

namespace Machine

variable {source : List UInt8} {sink : Sink} {program : List Stmt} {now : Moment} {m : Machine}

/-- Position by position the scopes from the current one outward have what is defined around the
place, and only names that are declared there. Behind them come the top level and the globals. -/
structure Mirrored (m : Machine) (P : Place) : Prop where
  topLevel : m.scopes.ancestor? m.current P.progress.scopes.length = some topLevel
  outermost : m.scopes.parent? Machine.topLevel = some globals
  position : ∀ d names, P.progress.scopes[d]? = some names → ∃ scope declared,
    m.scopes.ancestor? m.current d = some scope ∧ Machine.topLevel < scope ∧
      P.declared[d]? = some declared ∧
      (∀ x, names.lookup x = some true → (m.scopes.binding? scope x).isSome) ∧
      ∀ x, (m.scopes.binding? scope x).isSome → x ∈ declared

/-- The walk comes to the expression once, at this place. -/
def VisitedAt (program : List Stmt) (e : Expr) (P : Place) : Prop :=
  ∀ Q, Visits program Q ∧ Q.fragment = .expr e ↔ Q = P

/-- What is known when an expression is evaluated: the walk came to it at the place, and there the
machine stands. -/
structure Evaluates (program : List Stmt) (r : Resolution) (layout : List (List String))
    (m : Machine) (P : Place) (e : Expr) : Prop where
  analyzed : Analyzed program r
  tidy : Tidy program r layout m
  visits : Visits program P
  fragment : P.fragment = .expr e
  standing : Standing layout m P.declared P.progress.scopes

theorem Happens.analyzed (h : Happens source sink program now) :
    Analyzed program (Scoping.analyze .empty program).2 := .of_source h.parsed h.accepted

theorem Happens.evaluates (h : Happens source sink program now) {e : Expr}
    (he : now.task = .expr e) : ∃ r layout P, Evaluates program r layout now.machine P e := by
  obtain ⟨layout, ht, hr⟩ := occurs_ready h.analyzed sink h.occurs
  rw [he] at hr
  obtain ⟨_, _, ⟨P, hv, hf, rfl, rfl⟩, hst⟩ := hr
  exact ⟨_, layout, P, h.analyzed, ht, hv, hf, hst⟩

namespace Evaluates

variable {r : Resolution} {layout : List (List String)} {P : Place} {e : Expr}
  {reference : Reference}

theorem accepted (h : Evaluates program r layout m P e) :
    Place.Accepted r ⟨P.context, P.declared, P.progress, .expr e⟩ := by
  rw [← h.fragment]
  exact h.analyzed.accepted_of_visits h.visits

theorem visitedAt (h : Evaluates program r layout m P e) (hr : e.reference? = some reference) :
    VisitedAt program e P := by
  intro Q
  constructor
  · rintro ⟨hv, hf⟩
    exact h.analyzed.visits_unique hv (Place.mem_own hf hr) h.visits (Place.mem_own h.fragment hr)
  · rintro rfl
    exact ⟨h.visits, h.fragment⟩

/-- The distance of the node is that of its name at the place. -/
theorem distance_eq (h : Evaluates program r layout m P e) (hr : e.reference? = some reference) :
    m.resolution.distance? reference.id =
      Scoping.distance? reference.name P.progress.scopes := by
  rw [h.tidy.resolved]
  exact Scoping.reference_accepted h.accepted hr

theorem mirrored (h : Evaluates program r layout m P e) : Mirrored m P := by
  refine ⟨h.standing.mirrors.outermost, h.tidy.base, ?_⟩
  intro d names hn
  obtain ⟨scope, declared, hs, above, hd, laid, defined⟩ := h.standing.mirrors.position hn
  refine ⟨scope, declared, hs, above, hd, defined, ?_⟩
  intro x hx
  obtain ⟨found, hl, hm⟩ := h.tidy.within scope x above hx
  cases laid.symm.trans hl
  exact hm

end Evaluates

/-- The scope at the distance of a reference stands for the first scope of the walk that knew its
name. -/
def Matched (m : Machine) (P : Place) (reference : Reference) : Prop :=
  ∀ d, m.resolution.distance? reference.id = some d → ∃ names scope,
    P.progress.scopes[d]? = some names ∧ (names.lookup reference.name).isSome ∧
    (∀ nearer ∈ P.progress.scopes.take d, nearer.lookup reference.name = none) ∧
    m.scopes.ancestor? m.current d = some scope ∧ topLevel < scope

/-- Where a node that names a binding is evaluated, the scopes of the run mirror those that the walk
had around it, the one time that it came there. So there is a scope at its distance, below the top
level, which stands for the scope that the walk found. -/
theorem scopes_mirrored (h : Happens source sink program now) {e : Expr} {reference : Reference}
    (he : now.task = .expr e) (hr : e.reference? = some reference) :
    ∃ P, VisitedAt program e P ∧ Mirrored now.machine P ∧ Matched now.machine P reference := by
  obtain ⟨r, layout, P, ev⟩ := h.evaluates he
  refine ⟨P, ev.visitedAt hr, ev.mirrored, ?_⟩
  intro d hd
  rw [ev.distance_eq hr] at hd
  obtain ⟨names, hn, known, nearest⟩ := Scoping.distance?_eq_some hd
  obtain ⟨scope, -, hs, above, -⟩ := ev.mirrored.position d names hn
  exact ⟨names, scope, hn, known, nearest, hs, above⟩

/-- A name on the first line. -/
def word (text : String) : Token := ⟨.symbol .identifier, text, 1⟩

def closing : Token := ⟨.symbol .rightParen, ")", 1⟩

/-- A routine without parameters that returns a value. -/
def returning (name : String) (value : Expr) : FunctionDecl :=
  ⟨word name, [], [.ret ⟨.symbol .returnWord, "return", 1⟩ (some value)]⟩

/-- Where the run of a program starts. -/
def start (program : List Stmt) : Machine := ((fresh .unlimited).analyze program).2

/-- In a new scope inside another. -/
def entering (scope : ScopeId) (m : Machine) : Machine :=
  { ending (openScope scope [] m) with current := m.scopes.all.size }

/-- A call of such a routine comes to the value that it returns. -/
theorem call_leads {d id : Nat} {name : String} {callee value : Expr} {scope : ScopeId}
    {m m' : Machine}
    (hf : evaluate (d + 5) callee m = .ok (.function id ⟨returning name value, scope⟩) m') :
    Relation.ReflTransGen Calls ⟨d + 6, .expr (.call callee closing []), m⟩
      ⟨d, .expr value, entering scope m'⟩ :=
  .head (.applied hf rfl rfl rfl) (.head .function (.head (.body rfl rfl)
    (.head .statement (.head .returned (.head .present .refl)))))

namespace Inherited

/-- A method calls the method of the same name of the class that its own class extends. -/
def text : List UInt8 := Text.encode
  ("\x7b class A \x7b m() \x7b return this; \x7d \x7d " ++
    "class B extends A \x7b m() \x7b return super.m(); \x7d \x7d B().m(); \x7d")

def receiver : Expr := .thisRef 0 ⟨.symbol .thisWord, "this", 1⟩

def base : Stmt := .classDecl (word "A") none [returning "m" receiver] []

def inherited : Expr := .superMethod 2 ⟨.symbol .superWord, "super", 1⟩ (word "m")

def method : FunctionDecl := returning "m" (.call inherited closing [])

def derived : Stmt := .classDecl (word "B") (some (.var 1 (word "A"))) [method] []

def className : Expr := .var 3 (word "B")

def callee : Expr := .property (.call className closing []) (word "m")

def statements : List Stmt := [.block [base, derived, .expr (.call callee closing [])]]

def withBase : Machine := ending (execute 17 base (entering topLevel (start statements)))

/-- In the block, behind both classes. -/
def inBlock : Machine := ending (execute 16 derived withBase)

/-- In the method of the derived class. -/
def inDerived : Machine := entering 3 (ending (evaluate 13 callee inBlock))

/-- In the method of the base class. -/
def inBase : Machine := entering 5 (ending (evaluate 7 inherited inDerived))

theorem parsed : parse text = .ok statements := by
  with_unfolding_all rfl

theorem accepted : ((fresh .unlimited).analyze statements).1 = [] := by
  with_unfolding_all rfl

theorem call_occurs : Relation.ReflTransGen Calls ⟨20, .stmts statements, start statements⟩
    ⟨14, .expr (.call callee closing []), inBlock⟩ := by
  have extended : execute 17 base (entering topLevel (start statements)) =
      .ok .normal withBase := by
    with_unfolding_all rfl
  have extending : execute 16 derived withBase = .ok .normal inBlock := by
    with_unfolding_all rfl
  exact .head .statement (.head (.block rfl) (.head (.rest extended) (.head (.rest extending)
    (.head .statement (.head .expression .refl)))))

theorem className_happens :
    Happens text .unlimited statements ⟨11, .expr className, inBlock⟩ :=
  ⟨parsed, accepted, 20, .trans call_occurs
    (.head .callee (.head .propertyObject (.head .callee .refl)))⟩

theorem callee_gives : evaluate 13 callee inBlock =
    .ok (.function 2 ⟨method, 3⟩) (ending (evaluate 13 callee inBlock)) := by
  with_unfolding_all rfl

theorem inherited_occurs : Relation.ReflTransGen Calls
    ⟨20, .stmts statements, start statements⟩
    ⟨8, .expr (.call inherited closing []), inDerived⟩ :=
  .trans call_occurs (call_leads callee_gives)

theorem inherited_happens :
    Happens text .unlimited statements ⟨7, .expr inherited, inDerived⟩ :=
  ⟨parsed, accepted, 20, .tail inherited_occurs .callee⟩

theorem inherited_gives : evaluate 7 inherited inDerived =
    .ok (.function 3 ⟨returning "m" receiver, 5⟩) (ending (evaluate 7 inherited inDerived)) := by
  with_unfolding_all rfl

theorem receiver_occurs : Relation.ReflTransGen Calls ⟨20, .stmts statements, start statements⟩
    ⟨2, .expr receiver, inBase⟩ := .trans inherited_occurs (call_leads inherited_gives)

theorem receiver_happens : Happens text .unlimited statements ⟨2, .expr receiver, inBase⟩ :=
  ⟨parsed, accepted, 20, receiver_occurs⟩

end Inherited

theorem scopes_mirrored_in_method :
    Happens Inherited.text .unlimited Inherited.statements
        ⟨7, .expr Inherited.inherited, Inherited.inDerived⟩ ∧
      ∃ P, VisitedAt Inherited.statements Inherited.inherited P ∧
        Mirrored Inherited.inDerived P ∧ Matched Inherited.inDerived P ⟨"super", 2, 1⟩ :=
  ⟨Inherited.inherited_happens, scopes_mirrored Inherited.inherited_happens rfl rfl⟩

end Machine

end ClassScript
