import ClassScript.Proofs.Machine.Faults

/-! A run whose sink takes only so many bytes, beside the same run with a sink that takes all. While
the output keeps within the limit both do the same; the first output beyond it stops the limited
run. -/
namespace ClassScript

namespace Sink

variable {accepted : Array UInt8} {limit : Nat} {bytes : List UInt8}

theorem write_of_fits (refuses : Bool) (h : accepted.size + bytes.length ≤ limit) :
    write bytes ⟨accepted, some limit, refuses⟩ =
    .ok () ⟨accepted ++ bytes, some limit, refuses⟩ := by
  have all : room ⟨accepted, some limit, refuses⟩ bytes = bytes.length := by
    dsimp only [room]
    omega
  simp [write, all]

theorem write_of_exceeds (refuses : Bool) (hs : accepted.size ≤ limit)
    (h : limit < accepted.size + bytes.length) : write bytes ⟨accepted, some limit, refuses⟩ =
      .error .full ⟨accepted ++ bytes.take (limit - accepted.size), some limit, refuses⟩ := by
  have part : room ⟨accepted, some limit, refuses⟩ bytes = limit - accepted.size := by
    dsimp only [room]
    omega
  have short : limit - accepted.size < bytes.length := by omega
  simp [write, part, short]

end Sink

namespace Machine

variable {limit : Nat} {refuses : Bool} {m : Machine} {α β : Type}

def output (m : Machine) : List UInt8 := m.sink.accepted.toList

/-- The machine with a limit on its output in all, which may also refuse to flush it. -/
def limited (limit : Nat) (refuses : Bool) (m : Machine) : Machine :=
  { m with sink := ⟨m.sink.accepted, some limit, refuses⟩ }

/-- The end of a step, on the machine with the limit. -/
def withLimit (limit : Nat) (refuses : Bool) :
    EStateM.Result Stop Machine α → EStateM.Result Stop Machine α
  | .ok a m => .ok a (m.limited limit refuses)
  | .error stop m => .error stop (m.limited limit refuses)

/-- The sink takes everything. -/
structure Endless (m : Machine) : Prop where
  capacity : m.sink.capacity = none
  flushes : m.sink.refusesFlush = false

/-- The step with the limit ends as it does without, unless its output exceeds the limit; then it
fails for want of room, and its output is cut off at the limit. -/
structure Truncates (limit : Nat) (refuses : Bool) (step : Run α) (m : Machine) : Prop where
  endless : (ending (step m)).Endless
  grows : m.output <+: (ending (step m)).output
  fits : (ending (step m)).output.length ≤ limit →
    step (m.limited limit refuses) = withLimit limit refuses (step m)
  overflows : m.output.length ≤ limit → limit < (ending (step m)).output.length →
    ∃ m', step (m.limited limit refuses) = .error (.error (.output .full)) m' ∧
      m'.output = (ending (step m)).output.take limit

/-- On a machine whose sink takes everything the step can be truncated. -/
def Truncated (limit : Nat) (refuses : Bool) (step : Run α) (m : Machine) : Prop :=
  m.Endless → Truncates limit refuses step m

namespace Truncated

/-- A step that leaves the output alone. -/
theorem quiet {step : Run α} (hs : (ending (step m)).sink = m.sink)
    (hl : step (m.limited limit refuses) = withLimit limit refuses (step m)) :
    Truncated limit refuses step m := by
  intro endless
  have same : (ending (step m)).output = m.output := congrArg (·.accepted.toList) hs
  refine ⟨⟨hs ▸ endless.capacity, hs ▸ endless.flushes⟩, ?_, fun _ => hl, fun within beyond => ?_⟩
  · exact ⟨[], by rw [List.append_nil, same]⟩
  · rw [same] at beyond
    omega

/-- A step that does what another does on this machine, with the limit and without. -/
theorem congr {step other : Run α} (h : Truncated limit refuses other m) (hs : step m = other m)
    (hl : step (m.limited limit refuses) = other (m.limited limit refuses)) :
    Truncated limit refuses step m := by
  intro endless
  obtain ⟨endless, grows, fits, overflows⟩ := h endless
  rw [← hs] at endless grows fits overflows
  rw [← hl] at fits overflows
  exact ⟨endless, grows, fits, overflows⟩

theorem bind {step : Run α} {next : α → Run β} (h : Truncated limit refuses step m)
    (hn : ∀ a m', step m = .ok a m' → Truncated limit refuses (next a) m') :
    Truncated limit refuses (step >>= next) m := by
  intro endless
  obtain ⟨endless, grows, fits, overflows⟩ := h endless
  cases hs : step m with
  | error stop m' =>
    rw [hs] at endless grows fits overflows
    have stopped : (step >>= next) m = .error stop m' := bind_of_error hs
    refine ⟨?_, ?_, fun room => ?_, fun within beyond => ?_⟩ <;> rw [stopped] at *
    · exact endless
    · exact grows
    · exact bind_of_error (fits room)
    · obtain ⟨m'', full, cut⟩ := overflows within beyond
      exact ⟨m'', bind_of_error full, cut⟩
  | ok a m' =>
    rw [hs] at endless grows fits overflows
    have continued : (step >>= next) m = next a m' := bind_of_ok hs
    obtain ⟨endless', grows', fits', overflows'⟩ := hn a m' hs endless
    refine ⟨?_, ?_, fun room => ?_, fun within beyond => ?_⟩ <;> rw [continued] at *
    · exact endless'
    · exact grows.trans grows'
    · rw [bind_of_ok (fits (Nat.le_trans grows'.length_le room))]
      exact fits' room
    · by_cases room : m'.output.length ≤ limit
      · rw [bind_of_ok (fits room)]
        exact overflows' room beyond
      · -- the first step goes beyond the limit, and what the second writes is cut off as well
        obtain ⟨m'', full, cut⟩ := overflows within (Nat.not_le.mp room)
        refine ⟨m'', bind_of_error full, cut.trans ?_⟩
        obtain ⟨rest, hr⟩ := grows'
        rw [← hr]
        exact (List.take_append_of_le_length (Nat.le_of_not_le room)).symm

theorem onScopes (line : Nat) (action : Scopes.Action α) (m : Machine) :
    Truncated limit refuses (onScopes line action) m := by
  refine quiet ?_ ?_
  · rw [onScopes_eq]
    cases action m.scopes <;> rfl
  · have same : (m.limited limit refuses).scopes = m.scopes := rfl
    rw [onScopes_eq, onScopes_eq, same]
    cases action m.scopes <;> rfl

theorem within {scope : ScopeId} {steps : Run α}
    (h : Truncated limit refuses steps { m with current := scope }) :
    Truncated limit refuses (within scope steps) m := by
  intro endless
  obtain ⟨endless, grows, fits, overflows⟩ := h ⟨endless.capacity, endless.flushes⟩
  have inner : ({ m.limited limit refuses with current := scope } : Machine) =
      limited limit refuses { m with current := scope } := rfl
  have back : (ending (Machine.within scope steps m)).sink =
      (ending (steps { m with current := scope })).sink := by
    rw [within_eq]
    cases steps { m with current := scope } <;> rfl
  have written : (ending (Machine.within scope steps m)).output =
      (ending (steps { m with current := scope })).output := congrArg (·.accepted.toList) back
  refine ⟨⟨back ▸ endless.capacity, back ▸ endless.flushes⟩, written ▸ grows, fun room => ?_,
    fun room beyond => ?_⟩
  · rw [written] at room
    rw [within_eq, within_eq, inner, fits room]
    cases steps { m with current := scope } <;> rfl
  · rw [written] at beyond ⊢
    obtain ⟨m', full, cut⟩ := overflows room beyond
    rw [within_eq, inner, full]
    exact ⟨_, rfl, cut⟩

theorem write (bytes : List UInt8) (m : Machine) :
    Truncated limit refuses (onSink (Sink.write bytes)) m := by
  intro endless
  have whole : onSink (Sink.write bytes) m =
      .ok () { m with sink := { m.sink with accepted := m.sink.accepted ++ bytes } } := by
    rw [onSink_eq, Sink.write_of_unlimited endless.capacity]
  have written : (ending (onSink (Sink.write bytes) m)).output = m.output ++ bytes := by
    rw [whole]
    simp [output]
  have size : m.sink.accepted.size = m.output.length := Array.length_toList.symm
  refine ⟨?_, ?_, fun room => ?_, fun room beyond => ?_⟩
  · rw [whole]
    exact ⟨endless.capacity, endless.flushes⟩
  · rw [written]
    exact List.prefix_append _ _
  · rw [written, List.length_append, ← size] at room
    rw [whole, onSink_eq, limited, Sink.write_of_fits refuses room]
    rfl
  · rw [written, List.length_append, ← size] at beyond
    rw [onSink_eq, limited, Sink.write_of_exceeds refuses (size ▸ room) beyond]
    refine ⟨_, rfl, ?_⟩
    rw [written, List.take_append, List.take_of_length_le room, ← size]
    simp [output]

theorem print (value : Value) (m : Machine) : Truncated limit refuses (print value) m :=
  congr (write (Text.encode ((value.toJson m.objects).indented 0 ++ "\n")) m) rfl rfl

theorem lookup (id : Nat) (name : String) (line : Nat) (m : Machine) :
    Truncated limit refuses (lookup id name line) m := by
  have same : (m.limited limit refuses).resolution = m.resolution := rfl
  cases hd : m.resolution.distance? id with
  | some distance =>
    refine congr (onScopes line (Scopes.readAt m.current distance name) m) ?_ ?_
    · rw [lookup_eq, hd]
    · rw [lookup_eq, same, hd]
      rfl
  | none =>
    refine congr (onScopes line (Scopes.read m.current name) m) ?_ ?_
    · rw [lookup_eq, hd]
    · rw [lookup_eq, same, hd]
      rfl

theorem assign (id : Nat) (name : Token) (value : Value) (m : Machine) :
    Truncated limit refuses (assign id name value) m := by
  have same : (m.limited limit refuses).resolution = m.resolution := rfl
  cases hd : m.resolution.distance? id with
  | some distance =>
    refine congr (onScopes name.line (Scopes.assignAt m.current distance name.lexeme value) m) ?_ ?_
    · rw [assign_eq, hd]
    · rw [assign_eq, same, hd]
      rfl
  | none =>
    refine congr (onScopes name.line (Scopes.assign m.current name.lexeme value) m) ?_ ?_
    · rw [assign_eq, hd]
    · rw [assign_eq, same, hd]
      rfl

theorem compositional (limit : Nat) (refuses : Bool) :
    Compositional fun {α} => Truncated (α := α) limit refuses where
  pure _ _ := quiet rfl rfl
  throw _ _ := quiet rfl rfl
  bind := bind
  read {_ _ m} hn h := congr h rfl (congrFun (hn (m.limited limit refuses) rfl rfl) _)
  onScopes := onScopes
  within := within
  newIdentity _ := quiet rfl rfl
  newObject _ _ := quiet rfl rfl
  setField _ _ _ _ := quiet rfl rfl

theorem superMember (id : Nat) (keyword method : Token) (m : Machine) :
    Truncated limit refuses (superMember id keyword method) m := by
  refine bind (lookup id "super" keyword.line m) fun superclass m₁ _ => ?_
  refine bind (lookup id "this" keyword.line m₁) fun receiver m₂ _ => ?_
  cases superclass with
  | classRef c => exact (compositional limit refuses).inherited _ receiver _ _ m₂
  | null | bool | number | string | function | object =>
    exact (compositional limit refuses).fault _ _ m₂

end Truncated

theorem perform_truncated (limit : Nat) (refuses : Bool) (depth : Nat) (t : Task) (m : Machine) :
    Truncated limit refuses (perform depth t) m :=
  (Truncated.compositional limit refuses).perform depth t m fun _ _ =>
    ⟨fun id name _ => .lookup id name.lexeme name.line _,
      fun id keyword _ => .lookup id "this" keyword.line _,
      fun id keyword method _ => .superMember id keyword method _,
      fun _ id name _ v m _ _ _ => .assign id name v m, fun _ _ v m _ _ _ => .print v m⟩

/-- How a run ends after a flush that may be refused. -/
def Ending.flushed (refuses : Bool) : Ending → Ending
  | .finished => if refuses then .failed [.runtime (.output .flushRefused)] else .finished
  | .failed diagnostics => .failed diagnostics
  | .tooDeep => .tooDeep

theorem flush_endless (h : m.Endless) : onSink Sink.flush m = .ok () m := by
  rw [flush_eq, h.flushes]
  rfl

theorem flush_limited : onSink Sink.flush (m.limited limit refuses) =
    if refuses then .error (.error (.output .flushRefused)) (m.limited limit refuses)
    else .ok () (m.limited limit refuses) := flush_eq (m.limited limit refuses)

/-- The execution of a program with a limit on its output, beside that without one. -/
theorem interpret_truncated (depth : Nat) (program : List Stmt) (h : m.Endless)
    (within : m.output.length ≤ limit) :
    let whole := ended (interpret depth program m)
    let cut := ended (interpret depth program (m.limited limit refuses))
    (cut.1, cut.2.output) =
      if whole.2.output.length ≤ limit then (whole.1.flushed refuses, whole.2.output)
      else (.failed [.runtime (.output .full)], whole.2.output.take limit) := by
  have executed : Truncated limit refuses (executeProgram depth program) m :=
    (perform_truncated limit refuses depth (.stmts program) m).bind fun _ _ _ => .quiet rfl rfl
  obtain ⟨endless, -, fits, overflows⟩ := executed h
  have kept : (ended (interpret depth program m)).2.output =
      (ending (executeProgram depth program m)).output := by
    cases he : executeProgram depth program m with
    | ok u m₁ =>
      rw [he, ending_ok] at endless
      rw [interpret_of_ok he, flush_endless endless]
      rfl
    | error stop m₁ =>
      rw [interpret_of_error he]
      cases stop <;> rfl
  dsimp only
  rw [kept]
  split
  · rename_i room
    have same := fits room
    cases he : executeProgram depth program m with
    | ok u m₁ =>
      rw [he, ending_ok] at endless
      rw [he] at same
      rw [interpret_of_ok he, flush_endless endless, interpret_of_ok same, flush_limited]
      cases refuses <;> rfl
    | error stop m₁ =>
      rw [he] at same
      rw [interpret_of_error he, interpret_of_error same]
      cases stop <;> rfl
  · rename_i beyond
    obtain ⟨m', full, cut⟩ := overflows within (Nat.not_le.mp beyond)
    rw [interpret_of_error full, ← cut]
    rfl

/-- A sink that takes only so many bytes in all only cuts the output off. A run whose output keeps
within the limit ends as it does without, but for the flush, which only a run that finished can fail
at; any other run writes as much as there is room for and fails for want of more. -/
theorem run_truncated (depth : Nat) (source : List UInt8) (limit : Nat) (refuses : Bool) :
    let whole := run depth source (fresh .unlimited)
    let cut := run depth source (fresh ⟨#[], some limit, refuses⟩)
    (cut.1, cut.2.output) =
      if whole.2.output.length ≤ limit then (whole.1.flushed refuses, whole.2.output)
      else (.failed [.runtime (.output .full)], whole.2.output.take limit) := by
  cases hp : parse source with
  | error diagnostics =>
    simp only [run, hp]
    rfl
  | ok program =>
    have start : ((fresh ⟨#[], some limit, refuses⟩).analyze program) =
        (((fresh .unlimited).analyze program).1,
          ((fresh .unlimited).analyze program).2.limited limit refuses) := rfl
    cases ha : ((fresh .unlimited).analyze program).1 with
    | nil =>
      have accepted : ((fresh ⟨#[], some limit, refuses⟩).analyze program).1 = [] := ha
      rw [run_accepted hp ha, run_accepted hp accepted, start]
      exact interpret_truncated depth program ⟨rfl, rfl⟩ (Nat.zero_le limit)
    | cons e es =>
      have rejected : ((fresh ⟨#[], some limit, refuses⟩).analyze program).1 = e :: es := ha
      rw [run_rejected hp ha, run_rejected hp rejected]
      rfl

end Machine

end ClassScript
