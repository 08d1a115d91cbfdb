import ClassScript.Proofs.Machine.Extent
import ClassScript.Proofs.Machine.Upkeep
import ClassScript.Proofs.Store.Integrity

/-! Accounts of a run: what is known of every routine and of every class that a machine has in
reach. An account has to say how routines and classes come to be; that what it says goes on to hold,
however a task ends, is then shown once for all accounts. -/
namespace ClassScript

/-- The table of the static methods or that of the others. -/
def ClassBody.table (isStatic : Bool) (body : ClassBody) : MethodTable :=
  if isStatic then body.statics else body.methods

theorem ClassBody.mem_of_lookup {isStatic : Bool} {body : ClassBody} {name : String}
    {method : Closure} (h : (body.table isStatic).lookup name = some method) :
    (name, method) ∈ body.methods ++ body.statics := by
  obtain ⟨front, rest, hb, -⟩ := List.lookup_eq_some_iff.mp h
  have member : (name, method) ∈ body.table isStatic := by simp [hb]
  cases isStatic with
  | false => exact List.mem_append_left _ member
  | true => exact List.mem_append_right _ member

def Value.isClass : Value → Bool
  | classRef _ => true
  | _ => false

namespace Class

/-- The method that a name means on a receiver, looked up from the class on: a static one if the
receiver is a class. -/
def member? (c : Class) (receiver : Value) (name : String) : Option FoundMethod :=
  findIn (ClassBody.table receiver.isClass) name c.chain

/-- A method is found in the table of one class of a chain, and what `super` stands for is the
rest. -/
theorem findIn_eq_some {table : ClassBody → MethodTable} {name : String} {chain : List ClassBody}
    {found : FoundMethod} (h : findIn table name chain = some found) :
    ∃ front body behind, chain = front ++ body :: behind ∧
      (table body).lookup name = some found.method ∧ found.superclass = ofChain? behind := by
  induction chain with
  | nil => cases h
  | cons body behind ih =>
    rw [findIn] at h
    split at h
    · rename_i method hl
      cases h
      exact ⟨[], body, behind, rfl, hl, rfl⟩
    · obtain ⟨front, owner, rest, rfl, found⟩ := ih h
      exact ⟨body :: front, owner, rest, rfl, found⟩

end Class

/-- What the scope of a bound method holds. -/
def FoundMethod.bindings (found : FoundMethod) (receiver : Value) : List (String × Binding) :=
  match found.superclass with
  | some superclass => [("super", ⟨.classRef superclass, true⟩), ("this", ⟨receiver, true⟩)]
  | none => [("this", ⟨receiver, true⟩)]

/-- The store with a new scope for a method that is bound. -/
def Scopes.bound (t : Scopes) (found : FoundMethod) (receiver : Value) : Scopes :=
  ⟨t.all.push ⟨found.bindings receiver, some found.method.scope⟩⟩

theorem Scopes.size_bound (t : Scopes) (found : FoundMethod) (receiver : Value) :
    (t.bound found receiver).all.size = t.all.size + 1 := Array.size_push _

namespace Machine

variable {m m' : Machine} {α β : Type}

def Extent.bound (e : Extent) (found : FoundMethod) (receiver : Value) : Extent :=
  { e with scopes := e.scopes.bound found receiver }

theorem bind_eq (found : FoundMethod) (receiver : Value) (m : Machine) :
    bind found receiver m = .ok ⟨found.method.declaration, m.scopes.all.size⟩
      { m with scopes := m.scopes.bound found receiver } := rfl

/-- At this moment, on this machine, a method of the name is looked up from the class on and bound
to the receiver: to the object whose member it is, to the class whose static member it is, to the
object that is constructed, or to what `this` stands for where `super` is used. -/
inductive Binds : Moment → Machine → Class → Value → String → Prop
  | ofObject {d m object name id c before} (ho : evaluate d object m = .ok (.object id c) before)
    (hf : before.objects.field? id name.lexeme = none) :
    Binds ⟨d + 1, .expr (.property object name), m⟩ before c (.object id c) name.lexeme
  | ofClass {d m object name c before} (ho : evaluate d object m = .ok (.classRef c) before) :
    Binds ⟨d + 1, .expr (.property object name), m⟩ before c (.classRef c) name.lexeme
  | construction {d m c arguments object before} (ho : newObject c m = .ok object before) :
    Binds ⟨d + 1, .apply (.classRef c) arguments, m⟩ before c object constructorName
  | inherited {d m id keyword method c receiver}
    (hs : lookup id "super" keyword.line m = .ok (.classRef c) m)
    (hr : lookup id "this" keyword.line m = .ok receiver m) :
    Binds ⟨d + 1, .expr (.superMethod id keyword method), m⟩ m c receiver method.lexeme

/-- What `super` gives is looked up from the class that it stands for, and bound to what `this`
stands for. -/
theorem superMember_found {id : Nat} {keyword method : Token} {c : Class} {receiver : Value}
    (hs : lookup id "super" keyword.line m = .ok (.classRef c) m)
    (hr : lookup id "this" keyword.line m = .ok receiver m) :
    superMember id keyword method m = (match c.member? receiver method.lexeme with
      | some found => bind found receiver >>= newFunction
      | none => fault (.undefinedProperty c.name method.lexeme) method.line : Run Value) m := by
  rw [superMember, bind_of_ok hs, bind_of_ok hr]
  cases receiver <;> rfl

/-- What is known of the routines and of the classes, nearest first, that there are by then. It
depends on how the moments of a run come about. -/
structure Account where
  covers : Moment → Prop
  made : Extent → Closure → Prop
  family : Extent → List ClassBody → Prop

namespace Account

section Definitions

variable (A : Account)

def Knows (e : Extent) : Value → Prop
  | .function _ code => A.made e code
  | .classRef c | .object _ c => A.family e c.chain
  | .null | .bool _ | .number _ | .string _ => True

/-- The machine has nothing in reach but what the account knows. -/
structure Holds (m : Machine) : Prop where
  current : m.current < m.scopes.all.size
  scopes : m.scopes.WellFormed
  bindings : ∀ id x b, m.scopes.binding? id x = some b → A.Knows m.extent b.value
  fields : ∀ id x v, m.objects.field? id x = some v → A.Knows m.extent v

/-- What is known of the values that a task is given. -/
def Given (e : Extent) : Task → Prop
  | .apply callee arguments => A.Knows e callee ∧ ∀ v ∈ arguments, A.Knows e v
  | .invoke code arguments => A.made e code ∧ ∀ v ∈ arguments, A.Knows e v
  | .expr _ | .exprs _ | .option _ | .superclass _ | .stmt _ | .stmts _ | .declareClass _ _ _ _ =>
    True

def KnowsSignal (e : Extent) : Signal → Prop
  | .normal => True
  | .returned value => A.Knows e value

/-- What is known of the result of a task. -/
def Gives (e : Extent) : (task : Task) → task.Result → Prop
  | .expr _, v | .option _, v | .apply _ _, v | .invoke _ _, v => A.Knows e v
  | .exprs _, vs => ∀ v ∈ vs, A.Knows e v
  | .superclass extended, chain => A.family e chain ∧ (chain = [] ↔ extended = none)
  | .stmt _, signal | .stmts _, signal => A.KnowsSignal e signal
  | .declareClass _ _ _ _, _ => True

structure InOrder (now : Moment) : Prop where
  covered : A.covers now
  holds : A.Holds now.machine
  given : A.Given now.machine.extent now.task

/-- A step ends with the account in force, with or without a result. -/
def Ends (good : Extent → α → Prop) : EStateM.Result Stop Machine α → Prop
  | .ok a m' => A.Holds m' ∧ good m'.extent a
  | .error _ m' => A.Holds m'

/-- An account that says how routines and classes come to be, and how a task comes to call
another. -/
structure Lawful : Prop where
  made_mono {e e' code} (hl : e.Later e') (h : A.made e code) : A.made e' code
  family_mono {e e' chain} (hl : e.Later e') (h : A.family e chain) : A.family e' chain
  made_scope {e code} (h : A.made e code) : code.scope < e.scopes.all.size
  method_scope {e body behind isStatic name method} (h : A.family e (body :: behind))
    (hl : (body.table isStatic).lookup name = some method) : method.scope < e.scopes.all.size
  noClass {e} : A.family e []
  superclass {e body behind} (h : A.family e (body :: behind)) : A.family e behind
  function {d declaration m} (h : A.InOrder ⟨d + 1, .stmt (.function declaration), m⟩) :
    A.made m.extent ⟨declaration, m.current⟩
  /-- A class gets the next identity, and its ancestors are there by then. -/
  declared {d name superclass methods statics m e ancestors}
    (h : A.InOrder ⟨d + 1, .declareClass name superclass methods statics, m⟩)
    (hl : m.extent.Later e) (ha : A.family e ancestors) (hn : ancestors = [] ↔ superclass = none) :
    A.family { e with identities := e.identities + 1 } (⟨e.identities, name.lexeme,
      .ofDeclarations m.current methods, .ofDeclarations m.current statics⟩ :: ancestors)
  bound {now before c receiver name found} (h : A.InOrder now)
    (hb : Binds now before c receiver name) (hm : A.Holds before)
    (hc : A.family before.extent c.chain) (hr : A.Knows before.extent receiver)
    (hf : c.member? receiver name = some found) :
    A.made (before.extent.bound found receiver) ⟨found.method.declaration, before.scopes.all.size⟩
  calls {now next} (h : A.InOrder now) (hc : Calls now next) (hm : A.Holds next.machine)
    (hg : A.Given next.machine.extent next.task) : A.covers next

end Definitions

section Values

variable {A : Account} {e e' : Extent}

theorem Lawful.mono (hA : A.Lawful) (hl : e.Later e') {v : Value} (h : A.Knows e v) :
    A.Knows e' v := by
  cases v with
  | function id code => exact hA.made_mono hl h
  | classRef c | object id c => exact hA.family_mono hl h
  | null | bool | number | string => trivial

theorem Lawful.family_suffix (hA : A.Lawful) {front rest : List ClassBody}
    (h : A.family e (front ++ rest)) : A.family e rest := by
  induction front with
  | nil => exact h
  | cons body front ih => exact ih (hA.superclass h)

/-- The scope of a method that was found is there, and so is all that is known of its superclass. -/
theorem Lawful.found (hA : A.Lawful) {c : Class} {receiver : Value} {name : String}
    {found : FoundMethod} (hc : A.family e c.chain) (hf : c.member? receiver name = some found) :
    found.method.scope < e.scopes.all.size ∧ ∀ s ∈ found.superclass, A.Knows e (.classRef s) := by
  obtain ⟨front, body, behind, hb, hl, hs⟩ := Class.findIn_eq_some hf
  have family : A.family e (body :: behind) := hA.family_suffix (hb ▸ hc)
  refine ⟨hA.method_scope family hl, ?_⟩
  intro s hm
  rw [hs] at hm
  cases behind with
  | nil => cases hm
  | cons first rest =>
    cases hm
    exact hA.superclass family

theorem Knows.of_plain {v : Value} (h : v.Plain) : A.Knows e v := by
  cases v with
  | null | bool | number | string => trivial
  | function | classRef | object => cases h

end Values

namespace Holds

variable {A : Account} {t : Scopes} {id : ScopeId} {name : String} {value : Value}

/-- A machine with the same scopes, objects and identities in the same scope. -/
theorem same (h : A.Holds m) (hs : m'.scopes = m.scopes) (ho : m'.objects = m.objects)
    (hc : m'.current = m.current) (hn : m'.nextIdentity = m.nextIdentity) : A.Holds m' := by
  obtain ⟨scopes, objects, current, _, nextIdentity, _⟩ := m
  obtain ⟨_, _, _, _, _, _⟩ := m'
  cases hs
  cases ho
  cases hc
  cases hn
  exact ⟨h.current, h.scopes, h.bindings, h.fields⟩

/-- The machine in another scope. -/
theorem enter (h : A.Holds m) (hid : id < m.scopes.all.size) : A.Holds { m with current := id } :=
  ⟨hid, h.scopes, h.bindings, h.fields⟩

/-- An identity is given away. -/
theorem counted (hA : A.Lawful) (h : A.Holds m) :
    A.Holds { m with nextIdentity := m.nextIdentity + 1 } := by
  have later : m.extent.Later { m.extent with identities := m.nextIdentity + 1 } :=
    ⟨refl_of (Scopes.Steady _) m.scopes, Nat.le_succ _⟩
  exact ⟨h.current, h.scopes, fun id x b hb => hA.mono later (h.bindings id x b hb),
    fun id x v hv => hA.mono later (h.fields id x v hv)⟩

/-- A later store whose bindings are known. -/
theorem later (hA : A.Lawful) (h : A.Holds m) (hl : m.extent.Later { m.extent with scopes := t })
    (hw : t.WellFormed)
    (hb : ∀ id x b, t.binding? id x = some b → A.Knows { m.extent with scopes := t } b.value) :
    A.Holds { m with scopes := t } :=
  ⟨Nat.lt_of_lt_of_le h.current hl.scopes.size, hw, hb,
    fun id x v hv => hA.mono hl (h.fields id x v hv)⟩

theorem define (hA : A.Lawful) (h : A.Holds m) (hid : id < m.scopes.all.size)
    (hv : A.Knows m.extent value) (constant : Bool) :
    A.Holds { m with scopes := ending (Scopes.define id name value constant m.scopes) } := by
  have later : m.extent.Later
      { m.extent with scopes := ending (Scopes.define id name value constant m.scopes) } :=
    ⟨Scopes.Steady.define trivial m.scopes, Nat.le_refl _⟩
  refine h.later hA later h.scopes.define fun other x b hb => hA.mono later ?_
  rcases Scopes.binding?_of_define hid hb with hb | rfl
  · exact h.bindings other x b hb
  · exact hv

theorem assignIn (hA : A.Lawful) (h : A.Holds m) (hv : A.Knows m.extent value) :
    A.Holds { m with scopes := ending (Scopes.assignIn id name value m.scopes) } := by
  have later : m.extent.Later
      { m.extent with scopes := ending (Scopes.assignIn id name value m.scopes) } :=
    ⟨Scopes.Steady.assignIn m.scopes, Nat.le_refl _⟩
  refine h.later hA later h.scopes.assignIn fun other x b hb => hA.mono later ?_
  rcases Scopes.binding?_of_assignIn hb with hb | rfl
  · exact h.bindings other x b hb
  · exact hv

/-- The machine with one scope more. -/
theorem push (hA : A.Lawful) (h : A.Holds m) {scope : Scope}
    (hp : ∀ parent ∈ scope.parent, parent < m.scopes.all.size) (hd : scope.Distinct)
    (hv : ∀ x b, scope.find? x = some b → A.Knows m.extent b.value) :
    A.Holds { m with scopes := ⟨m.scopes.all.push scope⟩ } := by
  have later : m.extent.Later { m.extent with scopes := ⟨m.scopes.all.push scope⟩ } :=
    ⟨Scopes.Steady.create scope m.scopes, Nat.le_refl _⟩
  refine h.later hA later (h.scopes.push hp hd) fun other x b hb => hA.mono later ?_
  rw [Scopes.binding?, Scopes.scope?_push] at hb
  split at hb
  · exact hv x b hb
  · exact h.bindings other x b hb

theorem setField (h : A.Holds m) (hv : A.Knows m.extent value) :
    A.Holds { m with objects := m.objects.set id name value } := by
  refine ⟨h.current, h.scopes, h.bindings, fun other x v hx => ?_⟩
  rcases Objects.field?_set hx with rfl | hx
  · exact hv
  · exact h.fields other x v hx

theorem newObject (h : A.Holds m) : A.Holds { m with objects := m.objects.push } :=
  ⟨h.current, h.scopes, h.bindings, fun other x v hx => h.fields other x v (Objects.field?_push hx)⟩

end Holds

end Account

end Machine

end ClassScript
