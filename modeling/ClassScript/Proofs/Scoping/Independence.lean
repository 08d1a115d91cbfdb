import ClassScript.Proofs.Scoping.Composed
import ClassScript.Proofs.Scoping.Enclosures
import ClassScript.Program
import Mathlib.Data.List.Perm.Basic

/-! Statements at the top level are analysed independently. A walk finds the same whatever was found
before it, and at the top level no scope is left behind for the statements that follow. -/
namespace ClassScript

namespace Scoping

/-- What a walk finds, and how it ends. -/
structure Finding where
  fault : Option StaticError
  scopes : List Names
  errors : List StaticError
  /-- The distances that it notes, by the identities of the references, in the order of the
  notes. -/
  notes : List (Nat × Nat)

namespace Finding

def noted (notes : List (Nat × Nat)) (r : Resolution) : Resolution :=
  notes.foldl (fun r (id, distance) => r.note id distance) r

/-- The outcome of a walk with this finding behind what was found before. -/
def behind (f : Finding) (errors : List StaticError) (r : Resolution) :
    EStateM.Result StaticError Progress Unit :=
  match f.fault with
  | none => .ok () ⟨f.scopes, errors ++ f.errors, noted f.notes r⟩
  | some error => .error error ⟨f.scopes, errors ++ f.errors, noted f.notes r⟩

end Finding

/-- From the same scopes a walk finds the same, whatever was found before. -/
def Uniform (w : Walk Unit) : Prop :=
  ∀ scopes, ∃ f : Finding, ∀ errors r, w ⟨scopes, errors, r⟩ = f.behind errors r

namespace Uniform

variable {w v : Walk Unit}

theorem pure : Uniform (pure ()) := fun scopes =>
  ⟨⟨none, scopes, [], []⟩, fun errors r => by
    rw [Finding.behind, List.append_nil]
    rfl⟩

theorem throw (error : StaticError) : Uniform (throw error) := fun scopes =>
  ⟨⟨some error, scopes, [], []⟩, fun errors r => by
    rw [Finding.behind, List.append_nil]
    rfl⟩

/-- The second walk finds what it finds from where the first one ends, unless that fails. -/
theorem bind (hw : Uniform w) (hv : Uniform v) : Uniform (w >>= fun _ => v) := by
  intro scopes
  obtain ⟨⟨fault, between, errors₁, notes₁⟩, first⟩ := hw scopes
  cases fault with
  | some error =>
    exact ⟨⟨some error, between, errors₁, notes₁⟩, fun errors r => bind_of_error (first errors r)⟩
  | none =>
    obtain ⟨⟨fault, after, errors₂, notes₂⟩, second⟩ := hv between
    refine ⟨⟨fault, after, errors₁ ++ errors₂, notes₁ ++ notes₂⟩, fun errors r => ?_⟩
    rw [bind_of_ok (first errors r), second]
    simp only [Finding.behind, Finding.noted, List.append_assoc, List.foldl_append]

theorem report (error : StaticError) : Uniform (report error) := fun scopes =>
  ⟨⟨none, scopes, [error], []⟩, fun _ _ => rfl⟩

theorem resolve (id : Nat) (name : String) : Uniform (resolve id name) := by
  intro scopes
  cases hd : distance? name scopes with
  | none =>
    refine ⟨⟨none, scopes, [], []⟩, fun errors r => ?_⟩
    simp only [Scoping.resolve, modify_eq, hd, Finding.behind, List.append_nil]
    rfl
  | some distance =>
    refine ⟨⟨none, scopes, [], [(id, distance)]⟩, fun errors r => ?_⟩
    simp only [Scoping.resolve, modify_eq, hd, Finding.behind, List.append_nil]
    rfl

theorem mark (name : String) (defined : Bool) : Uniform (mark name defined) := fun scopes =>
  ⟨⟨none, marked name defined scopes, [], []⟩, fun errors r => by
    rw [mark_eq, Finding.behind, List.append_nil]
    rfl⟩

theorem declare (name : Token) : Uniform (declare name) := by
  intro scopes
  by_cases hd : declared name.lexeme scopes
  · refine ⟨⟨some ⟨.duplicate name.lexeme, name.line⟩, scopes, [], []⟩, fun errors r => ?_⟩
    rw [declare_eq, if_pos hd, Finding.behind, List.append_nil]
    rfl
  · refine ⟨⟨none, marked name.lexeme false scopes, [], []⟩, fun errors r => ?_⟩
    rw [declare_eq, if_neg hd, Finding.behind, List.append_nil]
    rfl

/-- A walk finds what its steps find, each from the scopes that it comes to. -/
theorem composed : Composed Uniform where
  pure := pure
  throw := throw
  bind := bind
  report := report
  resolve := resolve
  declare := declare
  define name := mark _ _
  unlessUndefined name error w hw := by
    intro scopes
    by_cases hu : isUndefined name scopes
    · obtain ⟨f, hf⟩ := bind (throw error) hw scopes
      exact ⟨f, fun errors r => (get_bind _).trans (by rw [if_pos hu]; exact hf errors r)⟩
    · obtain ⟨f, hf⟩ := hw scopes
      exact ⟨f, fun errors r => (get_bind _).trans (by rw [if_neg hu]; exact hf errors r)⟩
  thenDefine name w hw := by
    intro scopes
    obtain ⟨⟨fault, after, found, notes⟩, first⟩ := hw scopes
    refine ⟨⟨fault, marked name.lexeme true after, found, notes⟩, fun errors r => ?_⟩
    cases fault <;> simp only [thenDefine, first, Finding.behind, define, mark_eq]
  inScope names w hw := by
    intro scopes
    obtain ⟨⟨fault, after, found, notes⟩, first⟩ := hw (names :: scopes)
    refine ⟨⟨fault, scopes, found, notes⟩, fun errors r => ?_⟩
    cases fault <;> simp only [inScope, first, Finding.behind]
  isolated {w} hw := by
    intro scopes
    obtain ⟨⟨fault, after, found, notes⟩, first⟩ := hw scopes
    cases fault with
    | none => exact ⟨⟨none, after, found, notes⟩, fun errors r => by
        simp only [isolated, first, Finding.behind]⟩
    | some error =>
      refine ⟨⟨none, after, found ++ [error], notes⟩, fun errors r => ?_⟩
      simp only [isolated, first, Finding.behind, ← List.append_assoc]
      rfl

end Uniform

namespace Finding

/-- What the notes say of a reference, or else what was known of it. -/
theorem distance?_noted (notes : List (Nat × Nat)) (r : Resolution) (id : Nat) :
    (noted notes r).distance? id = ((noted notes .empty).distance? id).or (r.distance? id) := by
  induction notes generalizing r with
  | nil => simp [noted]
  | cons note notes ih =>
    have rest (r : Resolution) : noted (note :: notes) r = noted notes (r.note note.1 note.2) := rfl
    rw [rest, rest, ih, ih (Resolution.note _ _ _), Resolution.distance?_note,
      Resolution.distance?_note]
    split <;> simp

end Finding

section TopLevel

variable {program permuted : List Stmt} {s : Stmt} {id : Nat} {errors : List StaticError}
  {r : Resolution}

/-- The errors and the distances of a statement by itself, at the top level. -/
def alone (s : Stmt) : List StaticError × Resolution := analyze .empty [s]

/-- At the top level a statement leaves no scope, and adds to what was found what it gives alone. -/
theorem isolated_topLevel (s : Stmt) (errors : List StaticError) (r : Resolution) :
    ∃ r', isolated (walkStmt .top s) ⟨[], errors, r⟩ = .ok () ⟨[], errors ++ (alone s).1, r'⟩ ∧
      ∀ id, r'.distance? id = ((alone s).2.distance? id).or (r.distance? id) := by
  obtain ⟨⟨fault, scopes, found, notes⟩, gives⟩ :=
    Uniform.composed.isolated (Uniform.composed.walkStmt .top s) []
  have level := Level.composed.isolated (Level.composed.walkStmt .top s) ⟨[], errors, r⟩
  have ended : fault = none := by
    cases fault with
    | none => rfl
    | some error =>
      have step := gives [] .empty
      simp only [isolated] at step
      split at step <;> cases step
  subst ended
  have start := gives [] .empty
  rw [gives errors r] at level
  obtain rfl : scopes = [] := List.length_eq_zero_iff.mp level.height
  have single : alone s = (found, Finding.noted notes .empty) := by
    have walked : walkStmts .top [s] ⟨[], [], .empty⟩ =
        .ok () ⟨[], found, Finding.noted notes .empty⟩ := by
      rw [walkStmts, bind_of_ok start, walkStmts]
      rfl
    rw [alone, analyze, walked]
  refine ⟨_, by rw [gives, single]; rfl, fun id => ?_⟩
  rw [single]
  exact Finding.distance?_noted _ _ _

/-- A statement says nothing of references outside of it. -/
theorem alone_elsewhere (hi : id ∉ identities s.references) : (alone s).2.distance? id = none := by
  have grows := walkStmts_grows .top [s] ⟨[], [], .empty⟩
  have outside : id ∉ identities (Stmt.referencesAll [s]) := by
    simpa [Stmt.referencesAll_eq] using hi
  have kept := grows.elsewhere id outside
  rw [Resolution.distance?_empty] at kept
  rw [alone, analyze]
  split <;> rename_i ended <;> rw [ended] at kept <;> exact kept

/-- Statements one after the other leave no scope, and add what each gives alone. -/
theorem walkStmts_topLevel (ss : List Stmt) (errors : List StaticError) (r : Resolution) :
    ∃ r', walkStmts .top ss ⟨[], errors, r⟩ =
        .ok () ⟨[], errors ++ ss.flatMap (fun s => (alone s).1), r'⟩ ∧
      (∀ id ∉ identities (Stmt.referencesAll ss), r'.distance? id = r.distance? id) ∧
      ((identities (Stmt.referencesAll ss)).Nodup → ∀ s ∈ ss, ∀ id ∈ identities s.references,
        r'.distance? id = ((alone s).2.distance? id).or (r.distance? id)) := by
  induction ss generalizing errors r with
  | nil =>
    rw [walkStmts]
    exact ⟨r, by simp; rfl, fun _ _ => rfl, fun _ => by simp⟩
  | cons s ss ih =>
    obtain ⟨between, first, distances⟩ := isolated_topLevel s errors r
    obtain ⟨r', rest, elsewhere, inside⟩ := ih (errors ++ (alone s).1) between
    refine ⟨r', ?_, ?_, ?_⟩
    · rw [walkStmts, bind_of_ok first, rest, List.flatMap_cons, List.append_assoc]
    · intro id hi
      simp only [Stmt.referencesAll, identities_append, List.mem_append, not_or] at hi
      rw [elsewhere id hi.2, distances, alone_elsewhere hi.1, Option.none_or]
    · intro distinct
      rw [Stmt.referencesAll, identities_append, List.nodup_append] at distinct
      obtain ⟨-, distinct, apart⟩ := distinct
      rintro s' (_ | ⟨_, hs⟩) id hi
      · rw [elsewhere id fun h => apart id hi id h rfl, distances]
      · have later : id ∈ identities (Stmt.referencesAll ss) := by
          rw [Stmt.referencesAll_eq, identities, List.map_flatMap]
          exact List.mem_flatMap.mpr ⟨s', hs, hi⟩
        have other : id ∉ identities s.references := fun h => apart id h id later rfl
        rw [inside distinct s' hs id hi, distances, alone_elsewhere other, Option.none_or]

/-- An analysis with nothing known adds up what statements give alone. -/
theorem analyze_topLevel (ss : List Stmt) :
    (analyze .empty ss).1 = ss.flatMap (fun s => (alone s).1) ∧
      (∀ id ∉ identities (Stmt.referencesAll ss), (analyze .empty ss).2.distance? id = none) ∧
      ((identities (Stmt.referencesAll ss)).Nodup → ∀ s ∈ ss, ∀ id ∈ identities s.references,
        (analyze .empty ss).2.distance? id = (alone s).2.distance? id) := by
  obtain ⟨r', walked, elsewhere, inside⟩ := walkStmts_topLevel ss [] .empty
  rw [analyze, walked]
  refine ⟨rfl, fun id hi => ?_, fun distinct s hs id hi => ?_⟩
  · rw [elsewhere id hi, Resolution.distance?_empty]
  · rw [inside distinct s hs id hi, Resolution.distance?_empty, Option.or_none]

theorem identities_perm (perm : permuted.Perm program) :
    (identities (Stmt.referencesAll permuted)).Perm (identities (Stmt.referencesAll program)) := by
  rw [Stmt.referencesAll_eq, Stmt.referencesAll_eq]
  exact (perm.flatMap_right _).map _

end TopLevel

end Scoping

/-- In whatever order the statements of a program come, a fresh machine notes the same distances,
those of each statement alone, and its errors are those of each statement alone, one after the
other. -/
theorem Machine.analyze_permuted {source : List UInt8} {program permuted : List Stmt} (sink : Sink)
    (parsed : parse source = .ok program) (perm : permuted.Perm program) :
    (∀ id, ((fresh sink).analyze permuted).2.resolution.distance? id =
      ((fresh sink).analyze program).2.resolution.distance? id) ∧
    ((fresh sink).analyze permuted).1 = permuted.flatMap (fun s => ((fresh sink).analyze [s]).1) ∧
    ∀ s ∈ program, ∀ id ∈ identities s.references,
      ((fresh sink).analyze permuted).2.resolution.distance? id =
        ((fresh sink).analyze [s]).2.resolution.distance? id := by
  obtain ⟨distinct, -⟩ := parse_proper parsed
  have permuted_distinct := (Scoping.identities_perm perm).nodup_iff.mpr distinct
  obtain ⟨errors, elsewhere, inside⟩ := Scoping.analyze_topLevel permuted
  obtain ⟨-, elsewhere', inside'⟩ := Scoping.analyze_topLevel program
  refine ⟨fun id => ?_, errors, fun s hs => inside permuted_distinct s (perm.mem_iff.mpr hs)⟩
  by_cases hi : id ∈ identities (Stmt.referencesAll program)
  · rw [Stmt.referencesAll_eq, identities, List.map_flatMap] at hi
    obtain ⟨s, hs, hi⟩ := List.mem_flatMap.mp hi
    exact (inside permuted_distinct s (perm.mem_iff.mpr hs) id hi).trans
      (inside' distinct s hs id hi).symm
  · have outside : id ∉ identities (Stmt.referencesAll permuted) :=
      fun h => hi ((Scoping.identities_perm perm).mem_iff.mp h)
    exact (elsewhere id outside).trans (elsewhere' id hi).symm

namespace ReturnBehindBlock

/-- A name in a block, and a `return` outside of every function. -/
def text : List UInt8 := Text.encode "\x7b let a = true; print a; \x7d return;"

def word (text : String) : Token := ⟨.symbol .identifier, text, 1⟩

def inner : Stmt := .block
  [.letDecl (word "a") (some (.literal (.bool true))), .print (.var 0 (word "a"))]

def stray : Stmt := .ret ⟨.symbol .returnWord, "return", 1⟩ none

/-- The other way round the error comes first, and the distance in the block is the same. -/
theorem analyze_swapped :
    parse text = .ok [inner, stray] ∧ [stray, inner].Perm [inner, stray] ∧
      ((Machine.fresh .unlimited).analyze [stray, inner]).2.resolution.distance? 0 =
        ((Machine.fresh .unlimited).analyze [inner]).2.resolution.distance? 0 ∧
      ((Machine.fresh .unlimited).analyze [inner]).2.resolution.distance? 0 = some 0 ∧
      ((Machine.fresh .unlimited).analyze [stray, inner]).1 =
        ((Machine.fresh .unlimited).analyze [stray]).1 ++
          ((Machine.fresh .unlimited).analyze [inner]).1 ∧
      ((Machine.fresh .unlimited).analyze [stray]).1 = [⟨.strayReturn, 1⟩] := by
  have parsed : parse text = .ok [inner, stray] := by with_unfolding_all rfl
  have perm : [stray, inner].Perm [inner, stray] := .swap _ _ _
  obtain ⟨-, errors, distances⟩ := Machine.analyze_permuted .unlimited parsed perm
  refine ⟨parsed, perm, distances inner List.mem_cons_self 0 (by decide), ?_, ?_, ?_⟩
  · with_unfolding_all rfl
  · simpa using errors
  · with_unfolding_all rfl

end ReturnBehindBlock

end ClassScript
