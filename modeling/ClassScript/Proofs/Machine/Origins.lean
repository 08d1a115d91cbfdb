import ClassScript.Proofs.Machine.Accounted
import ClassScript.Proofs.Machine.Outermost
import ClassScript.Proofs.Scoping.WellFormed

/-! Where the scopes of a run come from. Outward from the scope in which a part of the program is
performed there is one scope for each frame that the part stands in: that of a block, or that of a
call of the routine of the frame. A method that is called was bound to its receiver earlier in the
run. -/
namespace ClassScript

open Scoping (Enclosure Fragment Stands)

/-- The part stands in the program inside of these frames, the innermost first. -/
def StandsIn (program : List Stmt) (f : Fragment) (frames : List Scoping.Frame) : Prop :=
  ∃ around, Stands program f around ∧ around.map Enclosure.frame = frames

namespace StandsIn

variable {program : List Stmt} {frames : List Scoping.Frame} {frame : Scoping.Frame} {s b : Stmt}
  {e e' : Expr}

theorem topLevel (h : s ∈ program) : StandsIn program (.stmt s) [] := ⟨[], .topLevel h, rfl⟩

theorem inside (h : StandsIn program (.stmt s) frames) (hf : frame ∈ s.frames)
    (hb : b ∈ frame.body) : StandsIn program (.stmt b) (frame :: frames) := by
  obtain ⟨around, stands, rfl⟩ := h
  obtain ⟨front, behind, body⟩ := List.append_of_mem hb
  exact ⟨_, stands.inside hf body, rfl⟩

theorem branch (h : StandsIn program (.stmt s) frames) (hb : b ∈ s.branches) :
    StandsIn program (.stmt b) frames := by
  obtain ⟨around, stands, rfl⟩ := h
  exact ⟨around, stands.branch hb, rfl⟩

theorem expression (h : StandsIn program (.stmt s) frames) (he : e ∈ s.expressions) :
    StandsIn program (.expr e) frames := by
  obtain ⟨around, stands, rfl⟩ := h
  exact ⟨around, stands.expression he, rfl⟩

theorem operand (h : StandsIn program (.expr e) frames) (he : e' ∈ e.operands) :
    StandsIn program (.expr e') frames := by
  obtain ⟨around, stands, rfl⟩ := h
  exact ⟨around, stands.operand he, rfl⟩

end StandsIn

namespace Machine

/-- The text that a task is about. -/
def Task.fragments : Task → List Fragment
  | expr e => [.expr e]
  | exprs es => es.map .expr
  | option e | superclass e => e.toList.map .expr
  | stmt s => [.stmt s]
  | stmts ss => ss.map .stmt
  | declareClass name extended methods statics => [.stmt (.classDecl name extended methods statics)]
  | apply _ _ | invoke _ _ => []

section Definitions

variable (past : Moment → Prop)

/-- The scope was made for a call of the routine. -/
def OpenedFor (scope : ScopeId) (code : Closure) : Prop :=
  ∃ depth arguments m, past ⟨depth, .invoke code arguments, m⟩ ∧ m.scopes.all.size = scope

/-- The routine is a method of the owner, looked up by its name and bound to the receiver. -/
structure BoundTo (code method : Closure) (receiver : Value) (owner : Class) : Prop where
  declaration : code.declaration = method.declaration
  event : ∃ now before c name, past now ∧ Binds now before c receiver name ∧
    before.scopes.all.size = code.scope ∧ owner.chain <:+ c.chain ∧
    c.member? receiver name = some ⟨method, owner.superclass⟩ ∧
    (owner.body.table receiver.isClass).lookup name = some method

/-- The scope holds the receiver of a method, and what `super` stands for if the owner extends a
class. -/
structure Receives (t : Scopes) (scope : ScopeId) (method : Closure) (receiver : Value)
    (owner : Class) : Prop where
  parent : t.parent? scope = some method.scope
  this : t.binding? scope "this" = some ⟨receiver, true⟩
  super : ∀ c, owner.superclass = some c → t.binding? scope "super" = some ⟨.classRef c, true⟩

/-- The scope is that of a call of a method of the owner, as it was bound to the receiver. -/
structure Runs (t : Scopes) (scope : ScopeId) (code method : Closure) (receiver : Value)
    (owner : Class) : Prop where
  opened : OpenedFor past scope code
  around : t.parent? scope = some code.scope
  bound : BoundTo past code method receiver owner
  receives : Receives t code.scope method receiver owner

/-- From the scope outward there is one scope for each frame, and the scope of its receiver behind
that of a method. -/
inductive Lies (t : Scopes) : ScopeId → List Scoping.Frame → Prop
  | topLevel (there : topLevel < t.all.size) : Lies t topLevel []
  | block {id parent body frames} (around : t.parent? id = some parent)
    (outward : Lies t parent frames) : Lies t id (.block body :: frames)
  | function {id code frames} (opened : OpenedFor past id code)
    (around : t.parent? id = some code.scope) (outward : Lies t code.scope frames) :
    Lies t id (.function code.declaration :: frames)
  | method {id code method receiver owner superclass frames}
    (runs : Runs past t id code method receiver owner)
    (kind : owner.superclass.isSome = superclass.isSome) (outward : Lies t method.scope frames) :
    Lies t id (.method superclass receiver.isClass code.declaration :: frames)

variable (program : List Stmt)

/-- How a routine that can be called came to be: its declaration was executed, or it was bound. -/
inductive Made (t : Scopes) (code : Closure) : Prop
  | function {s frames} (text : StandsIn program (.stmt s) frames)
    (frame : .function code.declaration ∈ s.frames) (outward : Lies past t code.scope frames)
  | method {s frames superclass method receiver owner} (text : StandsIn program (.stmt s) frames)
    (frame : .method superclass receiver.isClass code.declaration ∈ s.frames)
    (bound : BoundTo past code method receiver owner)
    (receives : Receives t code.scope method receiver owner)
    (kind : owner.superclass.isSome = superclass.isSome) (outward : Lies past t method.scope frames)

/-- The class was made by a declaration, in the scope that its methods have. -/
def Declared (t : Scopes) (c : Class) : Prop :=
  ∃ name superclass methods statics frames scope,
    StandsIn program (.stmt (.classDecl name superclass methods statics)) frames ∧
    c.superclass.isSome = superclass.isSome ∧
    c.body.methods = .ofDeclarations scope methods ∧
    c.body.statics = .ofDeclarations scope statics ∧
    Lies past t scope frames

def Family (t : Scopes) : List ClassBody → Prop
  | [] => True
  | body :: behind => Declared past program t ⟨body, behind⟩ ∧ Family t behind

/-- Where scopes, routines and classes of a run of the program come from. -/
def origins : Account where
  covers now := past now ∧ ∃ frames, (∀ f ∈ now.task.fragments, StandsIn program f frames) ∧
    Lies past now.machine.scopes now.machine.current frames
  made e := Made past program e.scopes
  family e := Family past program e.scopes

end Definitions

variable {past : Moment → Prop} {program : List Stmt} {t t' : Scopes} {id : ScopeId}
  {frames : List Scoping.Frame}

theorem Receives.mono {method : Closure} {receiver : Value} {owner : Class}
    (hs : t.Steady (fun _ _ => True) t') (h : Receives t id method receiver owner) :
    Receives t' id method receiver owner := by
  have constant {name : String} {v : Value} (hb : t.binding? id name = some ⟨v, true⟩) :
      t'.binding? id name = some ⟨v, true⟩ := by
    obtain ⟨⟨v', constant⟩, hb', rfl, hv⟩ := hs.kept id name _ hb
    obtain rfl : v' = v := hv rfl
    exact hb'
  exact ⟨hs.parent h.parent, constant h.this, fun c hc => constant (h.super c hc)⟩

namespace Lies

theorem mono (hs : t.Steady (fun _ _ => True) t') (h : Lies past t id frames) :
    Lies past t' id frames := by
  induction h with
  | topLevel there => exact .topLevel (Nat.lt_of_lt_of_le there hs.size)
  | block around _ ih => exact .block (hs.parent around) ih
  | function opened around _ ih => exact .function opened (hs.parent around) ih
  | method runs kind _ ih =>
    exact .method ⟨runs.opened, hs.parent runs.around, runs.bound, runs.receives.mono hs⟩ kind ih

theorem lt_size (h : Lies past t id frames) : id < t.all.size := by
  have inside {parent : ScopeId} (hp : t.parent? id = some parent) : id < t.all.size := by
    obtain ⟨scope, hs, -⟩ := Option.bind_eq_some_iff.mp hp
    exact (Array.getElem?_eq_some_iff.mp hs).1
  cases h with
  | topLevel there => exact there
  | block around => exact inside around
  | function _ around => exact inside around
  | method runs => exact inside runs.around

end Lies

theorem Made.mono {code : Closure} (hs : t.Steady (fun _ _ => True) t')
    (h : Made past program t code) : Made past program t' code := by
  cases h with
  | function text frame outward => exact .function text frame (outward.mono hs)
  | method text frame bound receives kind outward =>
    exact .method text frame bound (receives.mono hs) kind (outward.mono hs)

theorem Family.mono {chain : List ClassBody} (hs : t.Steady (fun _ _ => True) t')
    (h : Family past program t chain) : Family past program t' chain := by
  induction chain with
  | nil => trivial
  | cons body behind ih =>
    obtain ⟨name, superclass, methods, statics, frames, scope, text, rest⟩ := h.1
    obtain ⟨kind, own, shared, lies⟩ := rest
    exact ⟨⟨name, superclass, methods, statics, frames, scope, text, kind, own, shared,
      lies.mono hs⟩, ih h.2⟩

/-- A method of a declared class stands in the program as a frame of its declaration. -/
theorem Declared.method {c : Class} {isStatic : Bool} {name : String} {method : Closure}
    (h : Declared past program t c) (hl : (c.body.table isStatic).lookup name = some method) :
    ∃ s superclass frames, StandsIn program (.stmt s) frames ∧
      .method superclass isStatic method.declaration ∈ s.frames ∧
      c.superclass.isSome = superclass.isSome ∧ Lies past t method.scope frames := by
  obtain ⟨className, superclass, methods, statics, frames, scope, text, kind, own, shared, lies⟩ :=
    h
  obtain ⟨front, rest, hb, -⟩ := List.lookup_eq_some_iff.mp hl
  have member : (name, method) ∈ c.body.table isStatic := by simp [hb]
  have made {ds : List FunctionDecl} (hm : (name, method) ∈ MethodTable.ofDeclarations scope ds) :
      method.declaration ∈ ds ∧ method.scope = scope := by
    obtain ⟨d, hd, he⟩ := List.mem_map.mp (List.mem_reverse.mp hm)
    cases he
    exact ⟨hd, rfl⟩
  cases isStatic with
  | false =>
    change (name, method) ∈ c.body.methods at member
    obtain ⟨declared, scope⟩ := made (own ▸ member)
    exact ⟨_, superclass, frames, text, List.mem_append_left _ (List.mem_map_of_mem declared), kind,
      scope ▸ lies⟩
  | true =>
    change (name, method) ∈ c.body.statics at member
    obtain ⟨declared, scope⟩ := made (shared ▸ member)
    exact ⟨_, superclass, frames, text, List.mem_append_right _ (List.mem_map_of_mem declared),
      kind, scope ▸ lies⟩

theorem Made.scope_lt {code : Closure} (h : Made past program t code) :
    code.scope < t.all.size := by
  cases h with
  | function _ _ outward => exact outward.lt_size
  | method _ _ _ receives => exact Scopes.lt_size receives.this

/-- The scope of a method that was just bound. -/
theorem Receives.bound {method : Closure} {receiver : Value} {owner : Class} :
    Receives (t.bound ⟨method, owner.superclass⟩ receiver) t.all.size method receiver owner := by
  have binding (x : String) : (t.bound ⟨method, owner.superclass⟩ receiver).binding? t.all.size x =
      (FoundMethod.bindings ⟨method, owner.superclass⟩ receiver).lookup x :=
    Scopes.binding?_push_new
  refine ⟨Scopes.parent?_push_new, ?_, fun c hc => ?_⟩
  · rw [binding]
    cases hs : owner.superclass <;> rfl
  · rw [binding, hc]
    rfl

section Laws

variable {now next : Moment} (hp : ∀ {now next}, past now → Calls now next → past next)

/-- A method that is bound at a moment of the run. -/
theorem bound_made {before : Machine} {c : Class} {receiver : Value} {name : String}
    {found : FoundMethod} (ran : past now) (hb : Binds now before c receiver name)
    (hc : Family past program before.scopes c.chain) (hf : c.member? receiver name = some found) :
    Made past program (before.scopes.bound found receiver)
      ⟨found.method.declaration, before.scopes.all.size⟩ := by
  obtain ⟨front, body, behind, chain, hl, hs⟩ := Class.findIn_eq_some hf
  obtain ⟨method, superclass⟩ := found
  obtain rfl : superclass = Class.superclass ⟨body, behind⟩ := hs
  have declared : Declared past program before.scopes ⟨body, behind⟩ := by
    rw [chain] at hc
    clear chain
    induction front with
    | nil => exact hc.1
    | cons first front ih => exact ih hc.2
  obtain ⟨s, superclass, frames, text, frame, kind, lies⟩ := declared.method hl
  have bound : BoundTo past ⟨method.declaration, before.scopes.all.size⟩ method receiver
      ⟨body, behind⟩ :=
    ⟨rfl, now, before, c, name, ran, hb, rfl, chain ▸ List.suffix_append _ _, hf, hl⟩
  exact .method text frame bound .bound kind (lies.mono (Scopes.Steady.create _ before.scopes))

/-- The body of a routine that is called stands in a frame of its own, and so lies its scope. -/
theorem Made.body {code : Closure} {arguments : List Value} {m m₁ m₂ : Machine} {scope : ScopeId}
    {u : Unit} {depth : Nat} (h : Made past program m.scopes code)
    (ran : past ⟨depth, .invoke code arguments, m⟩) (ho : openScope code.scope [] m = .ok scope m₁)
    (hb : bindArguments scope code.declaration.params arguments m₁ = .ok u m₂) :
    ∃ frames, (∀ s ∈ code.declaration.body, StandsIn program (.stmt s) frames) ∧
      Lies past m₂.scopes scope frames := by
  have opened := ((openScope_unchanged _ _).ok ho).later
  have bound := ((bindArguments_keeps _ _ _).ok hb).later
  have made := (h.mono opened).mono bound
  have around : m₂.scopes.parent? scope = some code.scope := by
    refine bound.parent ?_
    cases ho
    exact Scopes.parent?_push_new
  have call : OpenedFor past scope code := by
    refine ⟨depth, arguments, m, ran, ?_⟩
    cases ho
    rfl
  cases made with
  | function text frame outward =>
    exact ⟨_, fun s hs => text.inside frame hs, .function call around outward⟩
  | method text frame bound receives kind outward =>
    exact ⟨_, fun s hs => text.inside frame hs,
      .method ⟨call, around, bound, receives⟩ kind outward⟩

include hp

/-- What a task calls is about a part of its own text, in the same frames or in those of a new
scope. -/
theorem origins_calls (h : (origins past program).InOrder now) (hc : Calls now next) :
    (origins past program).covers next := by
  obtain ⟨ran, frames, text, lies⟩ := h.covered
  have moved : Lies past next.machine.scopes now.machine.current frames :=
    lies.mono (hc.enters.steady.mono fun _ _ _ _ => trivial)
  have stays (hn : now.task.opens = false)
      (ht : ∀ f ∈ next.task.fragments, StandsIn program f frames) :
      ∃ frames, (∀ f ∈ next.task.fragments, StandsIn program f frames) ∧
        Lies past next.machine.scopes next.machine.current frames :=
    ⟨frames, ht, hc.current hn ▸ moved⟩
  have whole (f : Fragment) (hf : now.task.fragments = [f]) : StandsIn program f frames :=
    text f (by simp [hf])
  refine ⟨hp ran hc, ?_⟩
  cases hc with
  | group | assigned | operand | binaryLeft | binaryRight | logicalLeft | logicalRight | callee
  | propertyObject | setObject | setValue =>
    exact stays rfl (List.forall_mem_singleton.mpr
      ((whole _ rfl).operand (by simp [Expr.operands])))
  | arguments =>
    refine stays rfl fun f hf => ?_
    obtain ⟨e, he, rfl⟩ := List.mem_map.mp hf
    exact (whole _ rfl).operand (List.mem_cons_of_mem _ he)
  | applied | construct | function => exact stays rfl fun _ hf => absurd hf List.not_mem_nil
  | first => exact stays rfl (List.forall_mem_singleton.mpr (text _ List.mem_cons_self))
  | others => exact stays rfl fun f hf => text f (List.mem_cons_of_mem _ hf)
  | body ho hb =>
    obtain ⟨frames, stands, lies⟩ := Made.body h.given.1 ran ho hb
    refine ⟨frames, fun f hf => ?_, lies⟩
    obtain ⟨s, hs, rfl⟩ := List.mem_map.mp hf
    exact stands s hs
  | expression | printed | constInitializer | condition | loopCondition =>
    exact stays rfl (List.forall_mem_singleton.mpr
      ((whole _ rfl).expression (by simp [Stmt.expressions])))
  | letInitializer | returned =>
    refine stays rfl fun f hf => ?_
    obtain ⟨e, he, rfl⟩ := List.mem_map.mp hf
    exact (whole _ rfl).expression he
  | @block d m m' body scope ho =>
    have around : m'.scopes.parent? scope = some m.current := by
      cases ho
      exact Scopes.parent?_push_new
    refine ⟨.block body :: frames, fun f hf => ?_, .block around moved⟩
    obtain ⟨s, hs, rfl⟩ := List.mem_map.mp hf
    exact (whole _ rfl).inside (List.mem_singleton_self _) hs
  | thenBranch | elseBranch | loopBody =>
    exact stays rfl (List.forall_mem_singleton.mpr ((whole _ rfl).branch (by simp [Stmt.branches])))
  | again | classDecl => exact stays rfl text
  | statement => exact stays rfl (List.forall_mem_singleton.mpr (text _ List.mem_cons_self))
  | rest => exact stays rfl fun f hf => text f (List.mem_cons_of_mem _ hf)
  | present | ancestor => exact stays rfl text
  | extended =>
    refine stays rfl fun f hf => ?_
    obtain ⟨e, he, rfl⟩ := List.mem_map.mp hf
    exact (whole _ rfl).expression he

theorem origins_lawful : (origins past program).Lawful where
  made_mono hl h := Made.mono hl.scopes h
  family_mono hl h := Family.mono hl.scopes h
  made_scope h := Made.scope_lt h
  method_scope h hl := by
    obtain ⟨_, _, _, _, _, _, lies⟩ := Declared.method h.1 hl
    exact lies.lt_size
  noClass := trivial
  superclass h := h.2
  function h := by
    obtain ⟨-, frames, text, lies⟩ := h.covered
    exact .function (text _ List.mem_cons_self) (List.mem_singleton_self _) lies
  declared {d name superclass methods statics m e ancestors} h hl ha hn := by
    obtain ⟨-, frames, text, lies⟩ := h.covered
    have kind : (Class.ofChain? ancestors).isSome = superclass.isSome := by
      cases ancestors <;> cases superclass <;> simp_all [Class.ofChain?]
    exact ⟨⟨name, superclass, methods, statics, frames, m.current, text _ List.mem_cons_self, kind,
      rfl, rfl, lies.mono hl.scopes⟩, ha⟩
  bound h hb _ hc _ hf := bound_made h.covered.1 hb hc hf
  calls h hc _ _ := origins_calls hp h hc

end Laws

end Machine

end ClassScript
