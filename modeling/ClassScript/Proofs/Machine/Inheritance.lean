import ClassScript.Proofs.Machine.Descent
import ClassScript.Proofs.Machine.Time

/-! Inherited methods. What `super` gives is looked up behind the class that has the method, and
bound to the same receiver. So calls that go on with `super` climb the line of the receiver's
class. -/
namespace ClassScript

open Relation (ReflTransGen)

namespace Machine

variable {source : List UInt8} {sink : Sink} {program : List Stmt} {depth : Nat} {now : Moment}
  {past : Moment → Prop} {c owner : Class} {receiver : Value} {name : String} {call next : Moment}

/-- The call runs the method that the owner has under the name. It was looked up from the class on,
and bound to the receiver. -/
structure Invokes (past : Moment → Prop) (c : Class) (receiver : Value) (name : String)
    (owner : Class) (call : Moment) : Prop where
  happens : past call
  bound : ∃ now before method arguments, past now ∧ Binds now before c receiver name ∧
    owner.First (ClassBody.table receiver.isClass) name c.line method ∧
    call.task = .invoke ⟨method.declaration, before.scopes.all.size⟩ arguments

/-- In the call `super` gives a method under the name, and the next call runs what it gave. The call
is told by its scope, which is just inside the one where `super` is found. -/
def Climbs (past : Moment → Prop) (name : String) (call next : Moment) : Prop :=
  ∃ d id keyword method m n fid code m' arguments,
    past ⟨d, .expr (.superMethod id keyword method), m⟩ ∧
    method.lexeme = name ∧ m.resolution.distance? id = some (n + 1) ∧
    m.scopes.ancestor? m.current n = some call.machine.scopes.all.size ∧
    evaluate d (.superMethod id keyword method) m = .ok (.function fid code) m' ∧
    past next ∧ next.task = .invoke code arguments

section Steps

/-- A lookup along the line of a class finds the entry of the class that decides. -/
theorem member?_of_first {method : Closure}
    (h : owner.First (ClassBody.table receiver.isClass) name c.line method) :
    c.member? receiver name = some ⟨method, owner.superclass⟩ :=
  Class.findIn_eq_some_iff.mpr ⟨owner, h, rfl⟩

/-- A call runs one method, and that was bound once. -/
theorem Invokes.unique {c' owner' : Class} {receiver' : Value} {name' : String}
    (h : Invokes (During sink program depth) c receiver name owner call)
    (h' : Invokes (During sink program depth) c' receiver' name' owner' call) :
    c = c' ∧ receiver = receiver' ∧ name = name' ∧ owner = owner' := by
  obtain ⟨-, _, before, method, arguments, hn, binds, first, task⟩ := h
  obtain ⟨-, _, before', method', arguments', hn', binds', first', task'⟩ := h'
  have same := task.symm.trans task'
  injection same with code
  injection code with _ size
  obtain ⟨rfl, rfl, rfl⟩ :=
    bound_once hn hn' binds (member?_of_first first) binds' (member?_of_first first') size
  exact ⟨rfl, rfl, rfl, first.unique first'⟩

/-- A scope is that of one call of a method. -/
theorem Invokes.opened_once {c' owner' : Class} {receiver' : Value} {name' : String}
    (h : Invokes (During sink program depth) c receiver name owner call)
    (h' : Invokes (During sink program depth) c' receiver' name' owner' next)
    (same : call.machine.scopes.all.size = next.machine.scopes.all.size) : call = next := by
  obtain ⟨happens, _, _, _, _, -, -, -, task⟩ := h
  obtain ⟨happens', _, _, _, _, -, -, -, task'⟩ := h'
  obtain ⟨d, t, m⟩ := call
  obtain ⟨d', t', m'⟩ := next
  cases task
  cases task'
  exact Machine.opened_once happens happens' same

/-- A class whose methods are called has a line. -/
theorem Invokes.linear (h : Invokes (During sink program depth) c receiver name owner call) :
    owner.Linear := by
  obtain ⟨-, _, _, _, _, hn, binds, first, -⟩ := h
  have family := hn.dated.family Account.dated_lawful binds
  obtain ⟨front, suffix⟩ := first.suffix
  rw [← suffix] at family
  exact Account.dated_linear (Account.dated_lawful.family_suffix family)

/-- The scope of a method that runs is that of a call of the method. -/
theorem Runs.invokes {t : Scopes} {scope : ScopeId} {code member : Closure}
    (h : Runs past t scope code member receiver owner) :
    ∃ c name call, Invokes past c receiver name owner call ∧
      call.machine.scopes.all.size = scope := by
  obtain ⟨d, arguments, m, happens, size⟩ := h.opened
  obtain ⟨now, before, c, name, hn, binds, place, suffix, found, -⟩ := h.bound.event
  have task : Task.invoke code arguments =
      .invoke ⟨member.declaration, before.scopes.all.size⟩ arguments := by
    rw [place, ← h.bound.declaration]
  exact ⟨c, name, ⟨d, .invoke code arguments, m⟩,
    ⟨happens, now, before, member, arguments, hn, binds, Class.first_of_suffix suffix found, task⟩,
    size⟩

theorem During.made (hn : During sink program depth now) {code : Closure} {arguments : List Value}
    (ht : now.task = .invoke code arguments) : code.scope < now.machine.scopes.all.size := by
  have given := hn.dated.given
  rw [ht] at given
  exact given.1

variable {id d : Nat} {keyword method : Token} {m : Machine}

/-- Where `super` is used, it stands for what the owner of the method that runs extends, and `this`
for its receiver. Both are found around the scope of a call of the method. -/
theorem During.inherited (hp : parse source = .ok program)
    (ha : ((fresh sink).analyze program).1 = [])
    (hn : During sink program depth ⟨d, .expr (.superMethod id keyword method), m⟩) :
    ∃ receiver owner s, InMethod (During sink program depth) program m
        (.superMethod id keyword method) receiver owner ∧ owner.superclass = some s ∧
      lookup id "super" keyword.line m = .ok (.classRef s) m ∧
      lookup id "this" keyword.line m = .ok receiver m ∧
      ∃ n scope code member, m.resolution.distance? id = some (n + 1) ∧
        m.scopes.ancestor? m.current n = some scope ∧
        Runs (During sink program depth) m.scopes scope code member receiver owner := by
  have happens : Happens source sink program ⟨d, .expr (.superMethod id keyword method), m⟩ :=
    ⟨hp, ha, depth, hn⟩
  obtain ⟨r, layout, P, ev⟩ := happens.evaluates rfl
  obtain ⟨receiver, owner, superclass, inside, kind, derived⟩ :=
    hn.inMethod rfl ev.analyzed.distinct rfl (fun superclass => superclass.isSome)
      fun around hs => by
      obtain ⟨extended, heritage⟩ := ev.analyzed.wellFormed.superclasses hs
      exact ⟨_, heritage, rfl⟩
  obtain ⟨s, hs⟩ := Option.isSome_iff_exists.mp (kind.trans derived)
  have word : "super" = "this" ∨ "super" = "super" ∧ owner.superclass.isSome :=
    .inr ⟨rfl, kind.trans derived⟩
  obtain ⟨this, super⟩ := inside.tracked ev.analyzed ev.tidy.resolved rfl word
  exact ⟨receiver, owner, s, inside, hs, (super s hs).lookup _, this.lookup _,
    inside.call ev.analyzed ev.tidy.resolved rfl word⟩

/-- A call with `super` runs a method of a class that the owner descends from, for the same
receiver. It begins later than the call that it is made in. -/
theorem Climbs.invokes (hp : parse source = .ok program)
    (ha : ((fresh sink).analyze program).1 = [])
    (h : Climbs (During sink program depth) name call next)
    (hc : Invokes (During sink program depth) c receiver name owner call) :
    ∃ s above, owner.superclass = some s ∧
      Invokes (During sink program depth) s receiver name above next ∧
      call.machine.scopes.all.size < next.machine.scopes.all.size := by
  obtain ⟨d, id, keyword, method, m, n, fid, code, m', arguments, hn, rfl, distance, ancestor,
    gives, ran, runs⟩ := h
  obtain ⟨receiver', owner', s, -, superclass, extended, this, n', scope, code', member', distance',
    ancestor', inside⟩ := hn.inherited hp ha
  -- the distance leads to the scope of the call, so it is the call of the method that `super` is
  -- used in
  obtain rfl : n = n' := Nat.succ.inj (Option.some.inj (distance.symm.trans distance'))
  obtain rfl : call.machine.scopes.all.size = scope :=
    Option.some.inj (ancestor.symm.trans ancestor')
  obtain ⟨c', name', call', hc', size⟩ := inside.invokes
  obtain rfl := hc'.opened_once hc size
  obtain ⟨-, rfl, -, rfl⟩ := hc.unique hc'
  cases d with
  | zero => cases gives
  | succ d =>
    have bound := (superMember_found extended this).symm.trans gives
    cases hf : s.member? receiver method.lexeme with
    | none =>
      rw [hf] at bound
      cases bound
    | some inherited =>
      rw [hf] at bound
      cases bound
      obtain ⟨above, higher, -⟩ := Class.findIn_eq_some_iff.mp hf
      refine ⟨s, above, superclass, ⟨ran, _, m, inherited.method, arguments, hn,
        .inherited extended this, higher, runs⟩, Nat.lt_trans ?_ (ran.made runs)⟩
      obtain ⟨_, there, -⟩ := Option.bind_eq_some_iff.mp inside.around
      exact (Array.getElem?_eq_some_iff.mp there).1

end Steps

/-- The calls run the methods of these owners, in this order and in the order of time. Each goes on
with the one behind it, and nothing else goes on with what `super` gives. -/
structure Ascent (past : Moment → Prop) (receiver : Value) (name : String) (call : Moment)
    (owners : List Class) (calls : List Moment) : Prop where
  begins : calls.head? = some call
  runs : List.Forall₂ (fun owner call => ∃ c, Invokes past c receiver name owner call) owners calls
  linked : calls.IsChain (Climbs past name)
  complete : ∀ next, ReflTransGen (Climbs past name) call next ↔ next ∈ calls
  inOrder : calls.Pairwise fun call next =>
    call.machine.scopes.all.size < next.machine.scopes.all.size

/-- There is a method of the name behind the class. -/
def Overrides (receiver : Value) (name : String) (owner : Class) : Prop :=
  ∃ s, owner.superclass = some s ∧ (s.member? receiver name).isSome

section Ascents

variable {owners : List Class} {calls : List Moment}

theorem Ascent.topmost (hc : Invokes past c receiver name owner call)
    (h : ∀ next, ¬ Climbs past name call next) : Ascent past receiver name call [owner] [call] where
  begins := rfl
  runs := .cons ⟨c, hc⟩ .nil
  linked := .singleton _
  complete next := by
    rw [List.mem_singleton]
    constructor
    · intro hn
      obtain rfl | ⟨_, climbs, -⟩ := ReflTransGen.cases_head hn
      · rfl
      · exact absurd climbs (h _)
    · rintro rfl
      exact .refl
  inOrder := List.pairwise_singleton _ _

theorem Ascent.step (hc : Invokes past c receiver name owner call)
    (climbs : Climbs past name call next)
    (only : ∀ other, Climbs past name call other → other = next)
    (later : call.machine.scopes.all.size < next.machine.scopes.all.size)
    (h : Ascent past receiver name next owners calls) :
    Ascent past receiver name call (owner :: owners) (call :: calls) := by
  obtain ⟨begins, runs, linked, complete, inOrder⟩ := h
  obtain ⟨rest, rfl⟩ : ∃ rest, calls = next :: rest := by
    cases calls with
    | nil => cases begins
    | cons first rest =>
      cases begins
      exact ⟨rest, rfl⟩
  refine ⟨rfl, .cons ⟨c, hc⟩ runs, .cons_cons climbs linked, fun x => ?_, ?_⟩
  · rw [List.mem_cons, ← complete]
    constructor
    · intro hx
      obtain rfl | ⟨other, first, rest⟩ := ReflTransGen.cases_head hx
      · exact .inl rfl
      · exact .inr (only other first ▸ rest)
    · rintro (rfl | hx)
      · exact .refl
      · exact .head climbs hx
  · refine List.pairwise_cons.mpr ⟨?_, inOrder⟩
    refine List.forall_mem_cons.mpr ⟨later, fun x hx => ?_⟩
    exact Nat.lt_trans later (List.rel_of_pairwise_cons inOrder hx)

/-- If every call of a method that overrides another goes on with `super` once, the calls run each
method of the line once, from the first one on. -/
theorem ascends (hp : parse source = .ok program) (ha : ((fresh sink).analyze program).1 = [])
    (hc : Invokes (During sink program depth) c receiver name owner call)
    (once : ∀ below c' owner', ReflTransGen (Climbs (During sink program depth) name) call below →
      Invokes (During sink program depth) c' receiver name owner' below →
      Overrides receiver name owner' →
      ∃! next, Climbs (During sink program depth) name below next) :
    ∃ calls, Ascent (During sink program depth) receiver name call
      (Class.definers (ClassBody.table receiver.isClass) name c.line) calls := by
  generalize hd : Class.definers (ClassBody.table receiver.isClass) name c.line = owners
  induction owners generalizing c owner call with
  | nil =>
    obtain ⟨-, -, -, _, -, -, -, first, -⟩ := hc
    cases hd.symm.trans first.definers_eq
  | cons nearest owners ih =>
    obtain ⟨-, -, -, _, -, -, -, first, -⟩ := id hc
    obtain ⟨rfl, rfl⟩ := List.cons.inj (hd.symm.trans first.definers_eq)
    by_cases overrides : Overrides receiver name nearest
    · obtain ⟨next, climbs, only⟩ := once call c nearest .refl hc overrides
      obtain ⟨s, above, superclass, invokes, later⟩ := climbs.invokes hp ha hc
      have rest := ih invokes (fun below c' owner' hb => once below c' owner' (.head climbs hb))
        (by rw [superclass]; rfl)
      obtain ⟨calls, ascent⟩ := rest
      exact ⟨_, ascent.step hc climbs only later⟩
    · have none : Class.definers (ClassBody.table receiver.isClass) name
          ((nearest.superclass.map Class.line).getD []) = [] := by
        cases hs : nearest.superclass with
        | none => rfl
        | some s =>
          refine Class.definers_eq_nil_iff.mpr (Option.not_isSome_iff_eq_none.mp fun found => ?_)
          exact overrides ⟨s, hs, found⟩
      rw [none]
      refine ⟨_, .topmost hc fun next climbs => overrides ?_⟩
      obtain ⟨s, above, superclass, ⟨-, -, -, _, -, -, -, first, -⟩, -⟩ := climbs.invokes hp ha hc
      exact ⟨s, superclass, by rw [member?_of_first first]; rfl⟩

end Ascents

/-- Where an object has been made and its constructor is called. -/
def constructing (d : Nat) (c : Class) (arguments : List Value) (found : FoundMethod)
    (m : Machine) : Moment :=
  ⟨d, .invoke ⟨found.method.declaration, m.scopes.all.size⟩ arguments,
    { m with
      scopes := m.scopes.bound found (.object m.objects.all.size c), objects := m.objects.push }⟩

/-- A class is called with as many arguments as the constructor takes that is found then, and calls
no other. -/
theorem During.constructs {d : Nat} {arguments : List Value} {m : Machine}
    (hn : During sink program depth ⟨d + 1, .apply (.classRef c) arguments, m⟩) :
    arguments.length = c.arity ∧ ∀ next, Calls ⟨d + 1, .apply (.classRef c) arguments, m⟩ next ↔
      ∃ found, c.findMethod? constructorName = some found ∧ found.method.arity = c.arity ∧
        next = constructing d c arguments found m := by
  constructor
  · obtain first | ⟨before, -, hc⟩ := ReflTransGen.cases_tail hn
    · cases first
    · cases hc with
      | applied _ hv _ hl =>
        cases hv
        exact hl
  · intro next
    constructor
    · intro hc
      cases hc with
      | construct ho hf hb =>
        cases ho
        cases hb
        exact ⟨_, hf, by rw [Class.arity, hf], rfl⟩
    · rintro ⟨found, hf, -, rfl⟩
      exact .construct rfl hf rfl

/-- The class that decides what `super` gives is behind the owner of the method that runs. -/
theorem During.climbs {id d : Nat} {keyword method : Token} {m : Machine}
    (hp : parse source = .ok program) (ha : ((fresh sink).analyze program).1 = [])
    (hn : During sink program depth ⟨d + 1, .expr (.superMethod id keyword method), m⟩) :
    ∃ receiver owner s, InMethod (During sink program depth) program m
        (.superMethod id keyword method) receiver owner ∧ owner.Linear ∧ owner.superclass = some s ∧
      evaluate (d + 1) (.superMethod id keyword method) m =
      (match s.member? receiver method.lexeme with
        | some found => bind found receiver >>= newFunction
        | none => fault (.undefinedProperty s.name method.lexeme) method.line : Run Value) m ∧
      ∀ k entry, k.First (ClassBody.table receiver.isClass) method.lexeme s.line entry →
        k ∈ (owner.superclass.map Class.line).getD [] ∧ k.body.id < owner.body.id := by
  obtain ⟨receiver, owner, s, inside, superclass, super, this, n, scope, code, member, -, -,
    runs⟩ := hn.inherited hp ha
  obtain ⟨c, name, call, hc, -⟩ := runs.invokes
  have linear := hc.linear
  refine ⟨receiver, owner, s, inside, linear, superclass, superMember_found super this,
    fun k entry hk => ?_⟩
  have behind : k ∈ (owner.superclass.map Class.line).getD [] := by
    rw [superclass]
    exact hk.mem
  exact ⟨behind, linear.older behind⟩

/-- Every class that a program can get hold of has a finite line of superclasses, without
repetition, and the first class in the line that has a name decides what is found under it. A class
is called with the arguments of the constructor that is found so, and calls just that. What `super`
gives is decided behind the owner of the method that runs. So if each call of a method that
overrides another goes on with `super` once, a call runs each method of the name once, from the one
that was found for it up the line. -/
theorem lookups_climb (hp : parse source = .ok program)
    (ha : ((fresh sink).analyze program).1 = []) :
    (∀ now c, During sink program depth now → InReach now c → c.Linear ∧ ∀ name,
      c.Decides ClassBody.methods name (c.findMethod? name) ∧
        c.Decides ClassBody.statics name (c.findStatic? name)) ∧
    (∀ d c arguments m, During sink program depth ⟨d + 1, .apply (.classRef c) arguments, m⟩ →
      arguments.length = c.arity ∧ ∀ next, Calls ⟨d + 1, .apply (.classRef c) arguments, m⟩ next ↔
        ∃ found, c.findMethod? constructorName = some found ∧ found.method.arity = c.arity ∧
          next = constructing d c arguments found m) ∧
    (∀ d id keyword method m,
      During sink program depth ⟨d + 1, .expr (.superMethod id keyword method), m⟩ →
      ∃ receiver owner s, InMethod (During sink program depth) program m
          (.superMethod id keyword method) receiver owner ∧
        owner.Linear ∧ owner.superclass = some s ∧
        evaluate (d + 1) (.superMethod id keyword method) m =
        (match s.member? receiver method.lexeme with
          | some found => bind found receiver >>= newFunction
          | none => fault (.undefinedProperty s.name method.lexeme) method.line : Run Value) m ∧
        ∀ k entry, k.First (ClassBody.table receiver.isClass) method.lexeme s.line entry →
          k ∈ (owner.superclass.map Class.line).getD [] ∧ k.body.id < owner.body.id) ∧
    ∀ c receiver name owner call, Invokes (During sink program depth) c receiver name owner call →
      (∀ below c' owner', ReflTransGen (Climbs (During sink program depth) name) call below →
        Invokes (During sink program depth) c' receiver name owner' below →
        Overrides receiver name owner' →
        ∃! next, Climbs (During sink program depth) name below next) →
      ∃ calls, Ascent (During sink program depth) receiver name call
        (Class.definers (ClassBody.table receiver.isClass) name c.line) calls := by
  refine ⟨fun now c hn hr => ?_, fun d c arguments m hn => hn.constructs,
    fun d id keyword method m hn => hn.climbs hp ha,
    fun c receiver name owner call hc => ascends hp ha hc⟩
  obtain ⟨e, family⟩ := hn.dated.inReach Account.dated_lawful hr
  exact ⟨Account.dated_linear family,
    fun name => ⟨c.findIn_decides _ name, c.findIn_decides _ name⟩⟩

namespace Inherited

def baseClass : Class := ⟨⟨0, "A", .ofDeclarations 2 [returning "m" Inherited.receiver], []⟩, []⟩

def derivedClass : Class := ⟨⟨1, "B", .ofDeclarations 2 [method], []⟩, [baseClass.body]⟩

def object : Value := .object 0 derivedClass

/-- All that happens when the program runs. -/
def happens : Moment → Prop := During .unlimited statements 20

/-- The call of the method of the derived class. -/
def first : Moment := ⟨12, .invoke ⟨method, 3⟩ [], ending (evaluate 13 callee inBlock)⟩

/-- The call of the method of the base class. -/
def last : Moment := ⟨6, .invoke ⟨returning "m" Inherited.receiver, 5⟩ [],
    ending (evaluate 7 inherited inDerived)⟩

theorem first_happens : happens first :=
  .trans call_occurs (.head (.applied callee_gives rfl rfl rfl) (.head .function .refl))

theorem last_happens : happens last :=
  .trans inherited_occurs (.head (.applied inherited_gives rfl rfl rfl) (.head .function .refl))

theorem object_made : evaluate 12 (.call className closing []) inBlock =
    .ok object (ending (evaluate 12 (.call className closing []) inBlock)) := by
  with_unfolding_all rfl

theorem first_invokes : Invokes happens derivedClass object "m" derivedClass first := by
  refine ⟨first_happens, ⟨13, .expr callee, inBlock⟩, _, ⟨method, 2⟩, [], .tail call_occurs .callee,
    .ofObject object_made ?_, ⟨⟨[], [baseClass], rfl, List.forall_mem_nil _⟩, rfl⟩, ?_⟩
  · with_unfolding_all rfl
  · with_unfolding_all rfl

theorem first_climbs : Climbs happens "m" first last := by
  refine ⟨7, 2, _, word "m", inDerived, 0, 3, ⟨returning "m" Inherited.receiver, 5⟩, _, [],
    .tail inherited_occurs .callee, rfl, ?_, ?_, inherited_gives, last_happens, rfl⟩
  · with_unfolding_all rfl
  · with_unfolding_all rfl

/-- A kind of moment that there is one of among those of the run. -/
theorem only {kind : Moment → Bool} {a b : Moment}
    (once : (moments 20 ⟨20, .stmts statements, start statements⟩).countP kind = 1)
    (ha : happens a) (hb : happens b) (ka : kind a) (kb : kind b) : a = b := by
  rw [List.countP_eq_length_filter, List.length_eq_one_iff] at once
  obtain ⟨single, hs⟩ := once
  have listed {now : Moment} (hn : happens now) (h : kind now) : now = single := by
    rw [← List.mem_singleton, ← hs]
    exact List.mem_filter.mpr ⟨mem_moments_iff.mpr hn, h⟩
  exact (listed ha ka).trans (listed hb kb).symm

def usesSuper (now : Moment) : Bool :=
  match now.task with
  | .expr (.superMethod _ _ _) => true
  | _ => false

def runsIn (scope : ScopeId) (now : Moment) : Bool :=
  match now.task with
  | .invoke code _ => code.scope == scope
  | _ => false

theorem climbs_last {call next : Moment} (h : Climbs happens "m" call next) : next = last := by
  obtain ⟨_, _, _, _, _, _, _, _, _, _, hn, -, -, -, gives, ran, runs⟩ := h
  have used : (moments 20 ⟨20, .stmts statements, start statements⟩).countP usesSuper = 1 := by
    decide +kernel
  cases only used hn (.tail inherited_occurs .callee) rfl rfl
  cases (Eq.symm inherited_gives).trans gives
  have run : (moments 20 ⟨20, .stmts statements, start statements⟩).countP (runsIn 5) = 1 := by
    decide +kernel
  refine only run ran last_happens ?_ rfl
  rw [runsIn, runs]
  rfl

/-- Only the first call overrides a method, and it goes on with `super` once. -/
theorem climbs_once {below : Moment} {c owner : Class}
    (hb : ReflTransGen (Climbs happens "m") first below)
    (hc : Invokes happens c object "m" owner below) (ho : Overrides object "m" owner) :
    ∃! next, Climbs happens "m" below next := by
  obtain rfl | ⟨call, -, hl⟩ := ReflTransGen.cases_tail hb
  · exact ⟨last, first_climbs, fun next hn => climbs_last hn⟩
  · obtain rfl := climbs_last hl
    obtain ⟨s, above, hs, runs, -⟩ := Climbs.invokes parsed accepted first_climbs first_invokes
    obtain ⟨-, -, -, rfl⟩ := hc.unique runs
    cases hs
    obtain ⟨-, _, _, _, _, -, -, found, -⟩ := runs
    obtain rfl : owner = baseClass := List.mem_singleton.mp found.mem
    obtain ⟨s, none, -⟩ := ho
    cases none

end Inherited

theorem inherited_climbs : Inherited.derivedClass.Linear ∧ ∃ calls,
    Ascent Inherited.happens Inherited.object "m" Inherited.first
      [Inherited.derivedClass, Inherited.baseClass] calls := by
  obtain ⟨lines, -, -, climbs⟩ := lookups_climb Inherited.parsed Inherited.accepted
  have made := (Inherited.call_occurs.tail .callee).tail .propertyObject
  refine ⟨(lines _ _ made (.evaluated rfl Inherited.object_made rfl)).1, ?_⟩
  exact climbs _ _ _ _ _ Inherited.first_invokes fun _ _ _ => Inherited.climbs_once

end Machine

end ClassScript
