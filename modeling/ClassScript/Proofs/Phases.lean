import ClassScript.CommandLine
import ClassScript.Proofs.Steps
import Mathlib.Logic.ExistsUnique

/-! How a run can end. A phase that fails reports one or more errors of its own kind and no other
phase follows it; only the last phase writes output or touches scopes, and of its errors the first
is the only one. -/
namespace ClassScript

inductive Phase where
  | scanning
  | reading
  | analysis
  | execution
  deriving DecidableEq, Repr

/-- The phase that reports errors of this kind. -/
def Diagnostic.phase : Diagnostic → Phase
  | lexical _ _ => .scanning
  | syntactic _ => .reading
  | static _ => .analysis
  | runtime _ => .execution

/-- One error or more, all of them of the phase. -/
structure Phase.Reports (phase : Phase) (diagnostics : List Diagnostic) : Prop where
  nonempty : diagnostics ≠ []
  only : ∀ d ∈ diagnostics, d.phase = phase

namespace Phase

variable {phase phase' : Phase} {diagnostics : List Diagnostic}

theorem Reports.map {ε : Type} (kind : ε → Diagnostic) (hk : ∀ e, (kind e).phase = phase)
    {errors : List ε} (h : errors ≠ []) : phase.Reports (errors.map kind) := by
  refine ⟨by simpa using h, ?_⟩
  intro d hd
  obtain ⟨e, -, rfl⟩ := List.mem_map.mp hd
  exact hk e

/-- The errors of a phase are not those of another. -/
theorem Reports.unique (h : phase.Reports diagnostics) (h' : phase'.Reports diagnostics) :
    phase = phase' := by
  obtain ⟨d, hd⟩ := List.exists_mem_of_ne_nil diagnostics h.nonempty
  exact (h.only d hd).symm.trans (h'.only d hd)

theorem Reports.isRuntime_any (h : phase.Reports diagnostics) :
    diagnostics.any Diagnostic.isRuntime = decide (phase = .execution) := by
  have kind (d : Diagnostic) (hd : d ∈ diagnostics) :
      d.isRuntime = decide (phase = .execution) := by
    rw [← h.only d hd]
    cases d <;> rfl
  obtain ⟨d, hd⟩ := List.exists_mem_of_ne_nil diagnostics h.nonempty
  by_cases hp : phase = .execution
  · exact (List.any_eq_true.mpr ⟨d, hd, by simp [kind d hd, hp]⟩).trans (by simp [hp])
  · refine (List.any_eq_false.mpr fun d hd => ?_).trans (by simp [hp])
    simp [kind d hd, hp]

end Phase

theorem scan_reports {source : List UInt8} {diagnostics : List Diagnostic}
    (h : scan source = .error diagnostics) : Phase.scanning.Reports diagnostics := by
  unfold scan tokens at h
  dsimp only at h
  split at h
  · cases h
  · rename_i faults hf
    cases h
    exact .map (fun fault => .lexical fault.1 fault.2) (fun _ => rfl) hf

theorem parse_reports {source : List UInt8} {diagnostics : List Diagnostic}
    (h : parse source = .error diagnostics) :
    Phase.scanning.Reports diagnostics ∨ Phase.reading.Reports diagnostics := by
  rcases except_bind_error.mp h with h | ⟨ts, -, h⟩
  · exact .inl (scan_reports h)
  · unfold Stmt.ofTokens at h
    dsimp only at h
    split at h
    · cases h
    · rename_i errors he
      cases h
      exact .inr (.map .syntactic (fun _ => rfl) he)

namespace Machine

/-- The ways in which a run can end; one that nests too deep is broken off. -/
inductive Way where
  | success
  | failure (phase : Phase)
  | brokenOff
  deriving DecidableEq, Repr

/-- The machine that a phase leaves behind when it fails. Analysis may have noted distances by
then. -/
def Spares (m m' : Machine) : Phase → Prop
  | .scanning | .reading => m' = m
  | .analysis => m' = { m with resolution := m'.resolution }
  | .execution => True

/-- The run of the source on the machine ended in this way. -/
def Way.Taken (source : List UInt8) (m : Machine) : Way → Ending × Machine → Prop
  | success, (ending, _) => ending = .finished
  | failure phase, (ending, m') => ∃ diagnostics, ending = .failed diagnostics ∧
    phase.Reports diagnostics ∧ (phase = .execution → diagnostics.length = 1) ∧ m.Spares m' phase
  | brokenOff, (ending, _) => ending = .tooDeep ∧
    ∃ program, parse source = .ok program ∧ (m.analyze program).1 = []

/-- The exit status that tells the way. -/
def Way.status? : Way → Option Nat
  | success => some 0
  | failure .execution => some 70
  | failure _ => some 65
  | brokenOff => none

namespace Way

variable {source : List UInt8} {m : Machine} {way way' : Way} {result : Ending × Machine}

theorem Taken.unique (h : way.Taken source m result) (h' : way'.Taken source m result) :
    way = way' := by
  obtain ⟨ending, m'⟩ := result
  cases way <;> cases way'
  case failure.failure phase phase' =>
    obtain ⟨diagnostics, rfl, hr, -⟩ := h
    obtain ⟨_, he, hr', -⟩ := h'
    cases he
    rw [hr.unique hr']
  all_goals simp_all [Taken]

theorem taken (depth : Nat) (source : List UInt8) (m : Machine) :
    ∃ way : Way, way.Taken source m (run depth source m) := by
  unfold run
  cases hp : parse source with
  | error diagnostics =>
    rcases parse_reports hp with hr | hr
    · exact ⟨.failure .scanning, diagnostics, rfl, hr, nofun, rfl⟩
    · exact ⟨.failure .reading, diagnostics, rfl, hr, nofun, rfl⟩
  | ok program =>
    rcases ha : m.analyze program with ⟨_ | ⟨e, es⟩, m₁⟩
    · simp only [ha]
      cases interpret depth program m₁ with
      | ok => exact ⟨.success, rfl⟩
      | error stop m₂ =>
        cases stop with
        | tooDeep => exact ⟨.brokenOff, rfl, program, hp, by rw [ha]⟩
        | error e =>
          have reports : Phase.execution.Reports [.runtime e] :=
            .map .runtime (fun _ => rfl) (List.cons_ne_nil e [])
          exact ⟨.failure .execution, [.runtime e], rfl, reports, fun _ => rfl, trivial⟩
    · have reports : Phase.analysis.Reports ((e :: es).map .static) :=
        .map .static (fun _ => rfl) (List.cons_ne_nil e es)
      have distances : m₁ = { m with resolution := m₁.resolution } := by
        obtain rfl : (m.analyze program).2 = m₁ := by rw [ha]
        rfl
      simp only [ha]
      exact ⟨.failure .analysis, _, rfl, reports, nofun, distances⟩

/-- The command tells from the errors which phase they are of. -/
theorem Taken.status {stdout : Sink}
    (h : way.Taken source (fresh stdout) (run ampleDepth source (fresh stdout))) {status : Nat}
    (hs : way.status? = some status) : (CommandLine.run stdout source).status = status := by
  unfold CommandLine.run
  generalize run ampleDepth source (fresh stdout) = result at h
  obtain ⟨ending, m'⟩ := result
  cases way with
  | success =>
    cases h
    cases hs
    rfl
  | failure phase =>
    obtain ⟨diagnostics, rfl, hr, -⟩ := h
    simp only [CommandLine.failed, CommandLine.statusOf, hr.isRuntime_any]
    cases phase <;> cases hs <;> rfl
  | brokenOff => cases hs

end Way

/-- A run succeeds, or fails in one phase with errors of that phase alone, unless it is broken off,
for which it must have come to execution. Before execution nothing is written and no scope changes,
and before analysis no distance. Whatever standard output takes, the command ends with the status of
the way that its run takes. -/
theorem run_ends_one_way (source : List UInt8) :
    (∀ depth m, ∃! way : Way, way.Taken source m (run depth source m)) ∧
    ∀ stdout path text, Text.decodeStrict source = .ok text → ∀ (way : Way) status,
      way.Taken source (fresh stdout) (run ampleDepth source (fresh stdout)) →
      way.status? = some status →
      (CommandLine.Command.run.answerFile stdout path (.bytes source)).status = status := by
  constructor
  · intro depth m
    obtain ⟨way, h⟩ := Way.taken depth source m
    exact ⟨way, h, fun _ h' => h'.unique h⟩
  · intro stdout path text hu way status h hs
    rw [CommandLine.Command.answerFile, hu]
    exact h.status hs

/-- The program `-null;`. -/
def negatedNull : List UInt8 := [45, 110, 117, 108, 108, 59]

/-- The program `null;`. -/
def plainNull : List UInt8 := [110, 117, 108, 108, 59]

/-- Takes everything and refuses to flush it. -/
def stuckSink : Sink := ⟨#[], none, true⟩

theorem run_ends_one_way_at_fault :
    (Text.decodeStrict negatedNull = .ok "-null;" ∧
      (Way.failure .execution).Taken negatedNull (fresh .unlimited)
        (run ampleDepth negatedNull (fresh .unlimited)) ∧
      (CommandLine.Command.run.answerFile .unlimited "a" (.bytes negatedNull)).status = 70) ∧
    Text.decodeStrict plainNull = .ok "null;" ∧
      (Way.failure .execution).Taken plainNull (fresh stuckSink)
        (run ampleDepth plainNull (fresh stuckSink)) ∧
      (CommandLine.Command.run.answerFile stuckSink "a" (.bytes plainNull)).status = 70 := by
  have decoded : Text.decodeStrict negatedNull = .ok "-null;" := by
    with_unfolding_all rfl
  have failed : (Way.failure .execution).Taken negatedNull (fresh .unlimited)
      (run ampleDepth negatedNull (fresh .unlimited)) := by
    refine ⟨[.runtime (.fault (.operand (.negation "null")) 1)], ?_, ⟨by simp, ?_⟩, fun _ => rfl,
      trivial⟩
    · with_unfolding_all rfl
    · simp [Diagnostic.phase]
  have plain : Text.decodeStrict plainNull = .ok "null;" := by
    with_unfolding_all rfl
  have refused : (Way.failure .execution).Taken plainNull (fresh stuckSink)
      (run ampleDepth plainNull (fresh stuckSink)) := by
    refine ⟨[.runtime (.output .flushRefused)], ?_, ⟨by simp, ?_⟩, fun _ => rfl, trivial⟩
    · with_unfolding_all rfl
    · simp [Diagnostic.phase]
  exact ⟨⟨decoded, failed,
      (run_ends_one_way negatedNull).2 .unlimited "a" _ decoded (.failure .execution) 70 failed
        rfl⟩,
    plain, refused,
    (run_ends_one_way plainNull).2 stuckSink "a" _ plain (.failure .execution) 70 refused rfl⟩

end Machine

end ClassScript
