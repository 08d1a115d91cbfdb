import ClassScript.Proofs.Machine.Depth
import ClassScript.Proofs.Machine.Frame
import ClassScript.Proofs.Syntax.Clauses
import ClassScript.Proofs.Syntax.Grammar

/-! The meaning of a `for` statement. It is said here apart from the blocks that the statement is
read as: one scope for the initializer, one for each pass that has a step, and when which clause is
evaluated. The statement that is read comes to just that. -/
namespace ClassScript

namespace Machine

open Grammar (stepped preceded)

/-- What a condition comes to. One that is absent holds. -/
inductive Tests : Option Expr → Machine → Outcome Bool → Prop
  | absent {m : Machine} : Tests none m (.ok true m)
  | value {e : Expr} {m m' : Machine} {v : Value} (h : Comes (evaluate · e) m (.ok v m')) :
    Tests (some e) m (.ok v.truthy m')
  | fails {e : Expr} {m m' : Machine} {stop : Stop} (h : Comes (evaluate · e) m (.error stop m')) :
    Tests (some e) m (.error stop m')

/-- What the body of a loop comes to together with the step, if there is one. The two share a new
scope. The step is evaluated if the body completes, and there is nothing in the scope then. -/
inductive Passes : Option Expr → Stmt → Machine → Outcome Signal → Prop
  | bare {body : Stmt} {m : Machine} {r : Outcome Signal} (h : Comes (execute · body) m r) :
    Passes none body m r
  | returns {step : Expr} {body : Stmt} {m m' : Machine} {v : Value}
    (h : Comes (execute · body) m.entered (.ok (.returned v) m')) :
    Passes (some step) body m (.ok (.returned v) { m' with current := m.current })
  | fails {step : Expr} {body : Stmt} {m m' : Machine} {stop : Stop}
    (h : Comes (execute · body) m.entered (.error stop m')) :
    Passes (some step) body m (.error stop { m' with current := m.current })
  | steps {step : Expr} {body : Stmt} {m m' m'' : Machine} {v : Value}
    (h : Comes (execute · body) m.entered (.ok .normal m'))
    (inside : m'.current = m.scopes.all.size)
    (empty : m'.scopes.scope? m.scopes.all.size = some ⟨[], some m.current⟩)
    (hs : Comes (evaluate · step) m' (.ok v m'')) :
    Passes (some step) body m (.ok .normal { m'' with current := m.current })
  | stepFails {step : Expr} {body : Stmt} {m m' m'' : Machine} {stop : Stop}
    (h : Comes (execute · body) m.entered (.ok .normal m'))
    (inside : m'.current = m.scopes.all.size)
    (empty : m'.scopes.scope? m.scopes.all.size = some ⟨[], some m.current⟩)
    (hs : Comes (evaluate · step) m' (.error stop m'')) :
    Passes (some step) body m (.error stop { m'' with current := m.current })

/-- What passes of a loop come to that began at some machine. Every pass is made in the scope of the
first one, which has gained no names, and so has no scope around it. -/
inductive Repeats (start : Machine) (condition step : Option Expr) (body : Stmt) :
    Machine → Outcome Signal → Prop
  | stops {m m' : Machine} (same : Unchanged start m) (h : Tests condition m (.ok false m')) :
    Repeats start condition step body m (.ok .normal m')
  | testFails {m m' : Machine} {stop : Stop} (same : Unchanged start m)
    (h : Tests condition m (.error stop m')) : Repeats start condition step body m (.error stop m')
  | returns {m m' m'' : Machine} {v : Value} (same : Unchanged start m)
    (h : Tests condition m (.ok true m')) (hp : Passes step body m' (.ok (.returned v) m'')) :
    Repeats start condition step body m (.ok (.returned v) m'')
  | fails {m m' m'' : Machine} {stop : Stop} (same : Unchanged start m)
    (h : Tests condition m (.ok true m')) (hp : Passes step body m' (.error stop m'')) :
    Repeats start condition step body m (.error stop m'')
  | again {m m' m'' : Machine} {r : Outcome Signal} (same : Unchanged start m)
    (h : Tests condition m (.ok true m')) (hp : Passes step body m' (.ok .normal m''))
    (more : Repeats start condition step body m'' r) : Repeats start condition step body m r

/-- What a loop with these clauses comes to. An initializer is executed once, in a new scope in
which all passes are made. -/
inductive Loops (condition step : Option Expr) (body : Stmt) :
    Option Stmt → Machine → Outcome Signal → Prop
  | bare {m : Machine} {r : Outcome Signal} (h : Repeats m condition step body m r) :
    Loops condition step body none m r
  | fails {initializer : Stmt} {m m' : Machine} {stop : Stop}
    (h : Comes (execute · initializer) m.entered (.error stop m')) :
    Loops condition step body (some initializer) m (.error stop { m' with current := m.current })
  | begins {initializer : Stmt} {m m' : Machine} {r : Outcome Signal}
    (h : Comes (execute · initializer) m.entered (.ok .normal m'))
    (inside : m'.current = m.scopes.all.size) (hr : Repeats m' condition step body m' r) :
    Loops condition step body (some initializer) m (r.back m.current)

section Clauses

variable {m m' start : Machine} {condition step : Option Expr} {body : Stmt} {r : Outcome Signal}

theorem Comes.frame {s : Stmt} (h : Comes (execute · s) m r) : Frame s.declared m (ending r) := by
  obtain ⟨depth, rfl, -⟩ := h
  exact perform_frame depth (.stmt s) m

theorem Comes.unchanged {e : Expr} {r : Outcome Value} (h : Comes (evaluate · e) m r) :
    Unchanged m (ending r) := by
  obtain ⟨depth, rfl, -⟩ := h
  exact (perform_frame depth (.expr e) m).unchanged

/-- A body that declares nothing leaves nothing in the scope it was executed in. -/
theorem Comes.empty (hb : body.declared = [])
    (h : Comes (execute · body) m.entered (.ok .normal m')) :
    m'.current = m.scopes.all.size ∧
      m'.scopes.scope? m.scopes.all.size = some ⟨[], some m.current⟩ := by
  have same : Unchanged m.entered m' := (hb ▸ h.frame).unchanged
  have old : m.scopes.all.size < m.entered.scopes.all.size := by simp [entered]
  have parent : m'.scopes.parent? m.scopes.all.size = some m.current := by
    rw [same.steady.parents _ old]
    exact Scopes.parent?_push_new
  have unbound (x : String) : m'.scopes.binding? m.scopes.all.size x = none := by
    refine Option.not_isSome_iff_eq_none.mp fun hx => ?_
    obtain hx | hx := same.steady.gained _ x old hx
    · have fresh : m.entered.scopes.binding? m.scopes.all.size x = none := Scopes.binding?_push_new
      rw [fresh] at hx
      exact absurd hx Bool.false_ne_true
    · exact hx
  refine ⟨same.current, ?_⟩
  obtain ⟨⟨bindings, around⟩, hs, hp⟩ := Option.bind_eq_some_iff.mp parent
  obtain rfl : around = some m.current := hp
  cases bindings with
  | nil => exact hs
  | cons entry bindings =>
    have bound := unbound entry.1
    simp [Scopes.binding?, hs, Scope.find?] at bound

theorem tests_ok {b : Bool} : Tests condition m (.ok b m') ↔
    ∃ v, Comes (evaluate · (condition.getD (.literal (.bool true)))) m (.ok v m') ∧
      v.truthy = b := by
  cases condition with
  | none =>
    simp only [Option.getD_none, comes_literal]
    constructor
    · rintro ⟨⟩
      exact ⟨_, rfl, rfl⟩
    · rintro ⟨v, hv, rfl⟩
      cases hv
      exact .absent
  | some e =>
    constructor
    · rintro ⟨⟩
      exact ⟨_, ‹_›, rfl⟩
    · rintro ⟨v, hv, rfl⟩
      exact .value hv

theorem tests_error {stop : Stop} : Tests condition m (.error stop m') ↔
    Comes (evaluate · (condition.getD (.literal (.bool true)))) m (.error stop m') := by
  cases condition with
  | none =>
    rw [Option.getD_none, comes_literal]
    constructor <;> rintro ⟨⟩
  | some e =>
    constructor
    · rintro ⟨⟩
      assumption
    · exact .fails

theorem Tests.unchanged {r : Outcome Bool} (h : Tests condition m r) : Unchanged m (ending r) := by
  cases h with
  | absent => exact refl_of (Keeps _) m
  | value h => exact h.unchanged
  | fails h => exact h.unchanged

/-- The body is read together with the step. -/
theorem passes_iff (hb : body.declared = []) :
    Passes step body m r ↔ Comes (execute · (stepped body step)) m r := by
  cases step with
  | none =>
    rw [stepped]
    constructor
    · rintro ⟨⟩
      assumption
    · exact .bare
  | some step =>
    rw [stepped, comes_block]
    simp only [comes_pair, comes_expression]
    constructor
    · rintro (_ | h | h | ⟨h, -, -, hs⟩ | ⟨h, -, -, hs⟩)
      · exact ⟨_, .inr (.inl ⟨_, _, h, rfl⟩), rfl⟩
      · exact ⟨_, .inl ⟨_, _, h, rfl⟩, rfl⟩
      · exact ⟨_, .inr (.inr ⟨_, h, .inr ⟨_, _, hs, rfl⟩⟩), rfl⟩
      · exact ⟨_, .inr (.inr ⟨_, h, .inl ⟨_, _, hs, rfl⟩⟩), rfl⟩
    · rintro ⟨_, ⟨stop, m', h, rfl⟩ | ⟨v, m', h, rfl⟩ | ⟨m', h, hs⟩, rfl⟩
      · exact .fails h
      · exact .returns h
      · obtain ⟨inside, empty⟩ := h.empty hb
        obtain ⟨stop, m'', hs, rfl⟩ | ⟨v, m'', hs, rfl⟩ := hs
        · exact .stepFails h inside empty hs
        · exact .steps h inside empty hs

theorem Passes.unchanged (hb : body.declared = []) (h : Passes step body m r) :
    Unchanged m (ending r) := by
  have declared : (stepped body step).declared = [] := by
    cases step <;> simp [stepped, Stmt.declared, hb]
  exact (declared ▸ ((passes_iff hb).mp h).frame).unchanged

/-- What the loop comes to at some depth its passes come to. -/
theorem repeats_of_loop (hb : body.declared = []) (depth : Nat) {m : Machine}
    (same : Unchanged start m)
    (hr : execute depth (.loop (condition.getD (.literal (.bool true))) (stepped body step)) m = r)
    (hs : Settled r) : Repeats start condition step body m r := by
  induction depth generalizing m with
  | zero =>
    subst hr
    exact hs.elim
  | succ depth ih =>
    rw [execute] at hr
    obtain ⟨stop, m₁, he, rfl⟩ | ⟨v, m₁, hv, hr⟩ := bind_result.mp hr
    · exact .testFails same (tests_error.mpr ⟨depth, he, by cases stop <;> exact hs⟩)
    have value : Comes (evaluate · (condition.getD (.literal (.bool true)))) m (.ok v m₁) :=
      ⟨depth, hv, trivial⟩
    cases ht : v.truthy with
    | false =>
      simp only [ht, Bool.false_eq_true, if_false] at hr
      cases hr
      exact .stops same (tests_ok.mpr ⟨v, value, ht⟩)
    | true =>
      have holds : Tests condition m (.ok true m₁) := tests_ok.mpr ⟨v, value, ht⟩
      simp only [ht, if_true] at hr
      obtain ⟨stop, m₂, he, rfl⟩ | ⟨signal, m₂, hp, hr⟩ := bind_result.mp hr
      · exact .fails same holds ((passes_iff hb).mpr ⟨depth, he, by cases stop <;> exact hs⟩)
      have passed : Passes step body m₁ (.ok signal m₂) := (passes_iff hb).mpr ⟨depth, hp, trivial⟩
      cases signal with
      | returned value =>
        cases hr
        exact .returns same holds passed
      | normal =>
        have still : Unchanged start m₂ :=
          trans_of (Keeps _) (trans_of (Keeps _) same holds.unchanged) (passed.unchanged hb)
        exact .again same holds passed (ih still hr)

theorem repeats_iff (hb : body.declared = []) (same : Unchanged start m) :
    Repeats start condition step body m r ↔
      Comes (execute · (.loop (condition.getD (.literal (.bool true))) (stepped body step))) m
        r := by
  constructor
  · intro h
    clear same
    induction h with
    | stops _ h =>
      obtain ⟨v, hv, ht⟩ := tests_ok.mp h
      exact comes_loop.mpr (.inr (.inl ⟨v, _, hv, ht, rfl⟩))
    | testFails _ h => exact comes_loop.mpr (.inl ⟨_, _, tests_error.mp h, rfl⟩)
    | returns _ h hp =>
      obtain ⟨v, hv, ht⟩ := tests_ok.mp h
      have passed := (passes_iff hb).mp hp
      exact comes_loop.mpr (.inr (.inr
        ⟨v, _, hv, ht, comes_pair.mpr (.inr (.inl ⟨_, _, passed, rfl⟩))⟩))
    | fails _ h hp =>
      obtain ⟨v, hv, ht⟩ := tests_ok.mp h
      have passed := (passes_iff hb).mp hp
      exact comes_loop.mpr (.inr (.inr ⟨v, _, hv, ht, comes_pair.mpr (.inl ⟨_, _, passed, rfl⟩)⟩))
    | again _ h hp _ ih =>
      obtain ⟨v, hv, ht⟩ := tests_ok.mp h
      have passed := (passes_iff hb).mp hp
      exact comes_loop.mpr (.inr (.inr
        ⟨v, _, hv, ht, comes_pair.mpr (.inr (.inr ⟨_, passed, ih⟩))⟩))
  · rintro ⟨depth, hr, hs⟩
    exact repeats_of_loop hb depth same hr hs

theorem Comes.initialized {s : Stmt} (hi : s.Initializes) {signal : Signal}
    (h : Comes (execute · s) m (.ok signal m')) : signal = .normal := by
  obtain ⟨_ | depth, hr, -⟩ := h
  · cases hr
  obtain ⟨name, value, rfl⟩ | ⟨e, rfl⟩ := hi
  · obtain ⟨v, m₁, -, hr⟩ := bind_ok.mp hr
    obtain ⟨u, m₂, -, hr⟩ := bind_ok.mp hr
    cases hr
    rfl
  · obtain ⟨v, m₁, -, hr⟩ := bind_ok.mp hr
    cases hr
    rfl

theorem Comes.inside {s : Stmt} {signal : Signal}
    (h : Comes (execute · s) m.entered (.ok signal m')) :
    m'.current = m.scopes.all.size := h.frame.current

theorem forLoop_eq (initializer : Option Stmt) :
    Stmt.forLoop initializer condition step body =
      preceded (.loop (condition.getD (.literal (.bool true))) (stepped body step))
        initializer := by
  cases initializer <;> cases step <;> rfl

/-- The statement that stands for a loop comes to what the loop comes to. -/
theorem loops_iff {initializer : Option Stmt} (hi : ∀ s ∈ initializer, s.Initializes)
    (hb : body.declared = []) : Comes (execute · (.forLoop initializer condition step body)) m r ↔
      Loops condition step body initializer m r := by
  have begin (m : Machine) : Unchanged m m := refl_of (Keeps _) m
  rw [forLoop_eq]
  cases initializer with
  | none =>
    rw [preceded, ← repeats_iff hb (begin m)]
    constructor
    · exact .bare
    · rintro ⟨⟩
      assumption
  | some initializer =>
    rw [preceded, comes_block]
    simp only [comes_pair]
    constructor
    · rintro ⟨_, ⟨stop, m', h, rfl⟩ | ⟨v, m', h, rfl⟩ | ⟨m', h, hl⟩, rfl⟩
      · exact .fails h
      · cases h.initialized (hi initializer rfl)
      · exact .begins h h.inside ((repeats_iff hb (begin m')).mpr hl)
    · rintro (_ | h | ⟨h, -, hr⟩)
      · exact ⟨_, .inl ⟨_, _, h, rfl⟩, rfl⟩
      · exact ⟨_, .inr (.inr ⟨_, h, (repeats_iff hb (begin _)).mp hr⟩), rfl⟩

end Clauses

/-- A `for` statement that is read has the effect of the loop with its clauses and its body, from
whatever machine: the two end with the same signal or error and the same machine, or neither ends.
After the loop the machine is in the scope in which it was, and no scope that there was has a name
more. -/
theorem forStatement_loops {endLine n next : Nat} {t : Token} {ts rest : List Token} {s : Stmt}
    {hl : rest.length < (t :: ts).length} (isFor : t.is .forWord)
    (read : statement endLine n (t :: ts) = .done s next rest hl) :
    ∃ initializer condition step body n₁ rest₁ h₁ h₂,
      forClauses endLine n ts = .done (initializer, condition, step) n₁ rest₁ h₁ ∧
        statement endLine n₁ rest₁ = .done body next rest h₂ ∧
        ∀ m r, (Comes (execute · s) m r ↔ Loops condition step body initializer m r) ∧
          (Comes (execute · s) m r → Unchanged m (ending r)) := by
  obtain ⟨initializer, condition, step, body, n₁, rest₁, h₁, h₂, hc, hb, rfl⟩ :=
    forStatement_done isFor read
  have initializes : (forClauses endLine n ts).Gives fun clauses _ _ =>
    ∀ i ∈ clauses.1, i.Initializes := forClauses_initializes n ts
  have undeclared : (statement endLine n₁ rest₁).Gives fun body _ _ => body.declared = [] :=
    statement_undeclared n₁ rest₁
  rw [hc] at initializes
  rw [hb] at undeclared
  refine ⟨initializer, condition, step, body, n₁, rest₁, h₁, h₂, hc, hb, fun m r =>
    ⟨loops_iff initializes undeclared, fun h => ?_⟩⟩
  have declared := Stmt.forLoop_undeclared initializer condition step undeclared
  exact (declared ▸ h.frame).unchanged

namespace OnePass

def symbol (s : Symbol) : Token := ⟨.symbol s, s.name, 1⟩

def name : Token := ⟨.symbol .identifier, "i", 1⟩

/-- `(let i = true; i; i = null) i;` -/
def clauses : List Token :=
  [symbol .leftParen, symbol .letWord, name, symbol .equal, symbol .trueWord, symbol .semicolon,
    name, symbol .semicolon, name, symbol .equal, symbol .nullWord, symbol .rightParen, name,
    symbol .semicolon]

def loop : Stmt :=
  .forLoop (some (.letDecl name (some (.literal (.bool true))))) (some (.var 0 name))
    (some (.assign 2 name (.literal .null))) (.expr (.var 3 name))

def start : Machine := fresh .unlimited

/-- The machine at the first test and behind the pass. -/
def tested (value : Value) (passes : List Scope) : Machine :=
  { start with
    scopes := ⟨⟨⟨[], none⟩ :: ⟨[], some globals⟩ :: ⟨[("i", ⟨value, false⟩)], some topLevel⟩ ::
      passes⟩⟩
    current := 2 }

/-- The machine behind the loop: two scopes have been made, one for `i` and one for the pass. -/
def final : Machine := { tested .null [⟨[], some 2⟩] with current := topLevel }

theorem clauses_read :
    statement 1 0 (symbol .forWord :: clauses) = .done loop 4 [] (Nat.succ_pos _) := by
  with_unfolding_all rfl

/-- The body and the step, as they are read. -/
def pass : Stmt := .block [.expr (.var 3 name), .expr (.assign 2 name (.literal .null))]

theorem loop_comes : Comes (execute · loop) start (.ok .normal final) := by
  have begun : Comes (execute · (.letDecl name (some (.literal (.bool true))))) start.entered
      (.ok .normal (tested (.bool true) [])) := ⟨4, by with_unfolding_all rfl, trivial⟩
  have holds : Comes (evaluate · (.var 0 name)) (tested (.bool true) [])
      (.ok (.bool true) (tested (.bool true) [])) := ⟨4, by with_unfolding_all rfl, trivial⟩
  have passed : Comes (execute · pass) (tested (.bool true) [])
      (.ok .normal (tested .null [⟨[], some 2⟩])) := ⟨6, by with_unfolding_all rfl, trivial⟩
  have ends : Comes (evaluate · (.var 0 name)) (tested .null [⟨[], some 2⟩])
      (.ok .null (tested .null [⟨[], some 2⟩])) := ⟨4, by with_unfolding_all rfl, trivial⟩
  have again : Comes (execute · (.loop (.var 0 name) pass)) (tested .null [⟨[], some 2⟩])
      (.ok .normal (tested .null [⟨[], some 2⟩])) :=
    comes_loop.mpr (.inr (.inl ⟨_, _, ends, rfl, rfl⟩))
  have loops := comes_loop.mpr (.inr (.inr ⟨_, _, holds, rfl,
    comes_pair.mpr (.inr (.inr ⟨_, passed, again⟩))⟩))
  exact comes_block.mpr ⟨_, comes_pair.mpr (.inr (.inr ⟨_, begun, loops⟩)), rfl⟩

/-- The loop makes one pass, and `i` is gone behind it. -/
theorem one_pass : statement 1 0 (symbol .forWord :: clauses) = .done loop 4 [] (Nat.succ_pos _) ∧
    ∃ initializer condition step body,
      Loops condition step body initializer start (.ok .normal final) ∧ Unchanged start final := by
  obtain ⟨initializer, condition, step, body, -, -, -, -, -, -, meaning⟩ :=
    forStatement_loops rfl clauses_read
  obtain ⟨iff, unchanged⟩ := meaning start (.ok .normal final)
  exact ⟨clauses_read, initializer, condition, step, body, iff.mp loop_comes,
    unchanged loop_comes⟩

end OnePass

end Machine

end ClassScript
