import ClassScript.Program
import ClassScript.Proofs.Syntax.Rereading

/-! Printed programs say which program they were printed from, up to the identities of its nodes and
the lines of its tokens. -/
namespace ClassScript

namespace Form

/-- The function that a node is, from the parts behind its head and the statements that they are. -/
def functionOf (raw : List Form) (parts : List Stmt) : FunctionDecl :=
  match raw with
  | x :: .node params :: _ => ⟨x.name, params.map name, parts.drop 2⟩
  | _ => ⟨.ofText "", [], []⟩

/-- A class together with one more part of it. -/
def addPart : Stmt → Stmt → Stmt
  | .classDecl _ superclass methods statics, .classDecl name superclass' methods' statics' =>
    .classDecl name (superclass <|> superclass') (methods ++ methods') (statics ++ statics')
  | _, whole => whole

/-- The statement that a node with a head of this symbol is, from the parts behind its head and the
statements that they are. A part of a class is taken for a class that has nothing else. -/
def stmtOf (s : Symbol) (head : String) (raw : List Form) (parts : List Stmt) : Stmt :=
  let atom (i : Nat) : Token := (raw.getD i (.node [])).name
  let expr (i : Nat) : Expr := (raw.getD i (.node [])).expr
  let part (i : Nat) : Stmt := parts.getD i (.block [])
  match s with
  | .semicolon => .expr (expr 0)
  | .printWord => .print (expr 0)
  | .letWord => .letDecl (atom 0) (raw[1]?.map Form.expr)
  | .constWord => .constDecl (atom 0) (expr 1)
  | .ifWord => .cond (expr 0) (part 1) parts[2]?
  | .whileWord => .loop (expr 0) (part 1)
  | .functionWord => .function (functionOf raw parts)
  | .returnWord => .ret (.ofText head) (raw[0]?.map Form.expr)
  | .classWord => (parts.drop 1).foldr addPart (.classDecl (atom 0) none [] [])
  | .extendsWord => .classDecl (.ofText head) (some (expr 0)) [] []
  | .staticWord => .classDecl (.ofText head) none [] [functionOf raw parts]
  | _ =>
    if head = "block" then .block parts
    else .classDecl (.ofText head) none [functionOf raw parts] []

mutual
def stmt : Form → Stmt
  | .node (.atom head :: parts) => stmtOf (.ofText head) head parts (stmts parts)
  | _ => .block []

def stmts : List Form → List Stmt
  | [] => []
  | x :: xs => x.stmt :: stmts xs
end

theorem stmt_node {s : Symbol} {head : String} (h : Symbol.ofText head = s) (parts : List Form) :
    (Form.node (.atom head :: parts)).stmt = stmtOf s head parts (stmts parts) := by
  subst h
  rfl

end Form

/-- The statement can be read off its form. -/
structure Stmt.Reread (s : Stmt) : Prop where
  stmt : s.form.stmt = s.unlined
  readable : s.form.Readable

structure Stmt.RereadAll (ss : List Stmt) : Prop where
  stmts : Form.stmts (Stmt.forms ss) = Stmt.unlinedAll ss
  readable : ∀ x ∈ Stmt.forms ss, x.Readable

/-- The names and the body of the function can be read off its form. -/
structure FunctionDecl.Reread (d : FunctionDecl) : Prop where
  name : d.name.Named
  params : ∀ p ∈ d.params, p.Named
  body : Stmt.RereadAll d.body

namespace Grammar

open Form

variable {s first second : Stmt} {e : Expr} {name keyword : Token} {ss : List Stmt}
  {d : FunctionDecl} {ts : List Token} {value : Option Expr}

theorem name_atom (h : name.Named) : (Form.atom name.lexeme).name = name.unlined :=
  h.unlined_eq.symm

theorem reread_expr (h : e.Reread) : (Stmt.expr e).Reread where
  stmt := by
    have word : Symbol.ofText ";" = .semicolon := by decide
    exact (stmt_node word _).trans (congrArg Stmt.expr h.expr)
  readable := readable_node (by decide) (by simp [h.readable])

theorem reread_print (h : e.Reread) : (Stmt.print e).Reread where
  stmt := by
    have word : Symbol.ofText "print" = .printWord := by decide
    exact (stmt_node word _).trans (congrArg Stmt.print h.expr)
  readable := readable_node (by decide) (by simp [h.readable])

theorem reread_let (hn : name.Named) (he : ∀ e ∈ value, e.Reread) :
    (Stmt.letDecl name value).Reread := by
  have word : Symbol.ofText "let" = .letWord := by decide
  cases value with
  | none =>
    refine ⟨?_, readable_node (by decide) (by simp [readable_atom hn.atom])⟩
    exact (stmt_node word _).trans (congrArg (Stmt.letDecl · none) (name_atom hn))
  | some e =>
    have h := he e rfl
    refine ⟨?_, readable_node (by decide) (by simp [readable_atom hn.atom, h.readable])⟩
    exact (stmt_node word _).trans
      (congrArg₂ (fun name e => Stmt.letDecl name (some e)) (name_atom hn) h.expr)

theorem reread_const (hn : name.Named) (h : e.Reread) : (Stmt.constDecl name e).Reread where
  stmt := by
    have word : Symbol.ofText "const" = .constWord := by decide
    exact (stmt_node word _).trans (congrArg₂ Stmt.constDecl (name_atom hn) h.expr)
  readable := readable_node (by decide) (by simp [readable_atom hn.atom, h.readable])

theorem reread_return (hk : keyword.unlined = .ofText "return") (he : ∀ e ∈ value, e.Reread) :
    (Stmt.ret keyword value).Reread := by
  have word : Symbol.ofText "return" = .returnWord := by decide
  cases value with
  | none =>
    refine ⟨?_, readable_node (by decide) nofun⟩
    exact (stmt_node word _).trans (congrArg (Stmt.ret · none) hk.symm)
  | some e =>
    have h := he e rfl
    refine ⟨?_, readable_node (by decide) (by simp [h.readable])⟩
    exact (stmt_node word _).trans
      (congrArg₂ (fun keyword e => Stmt.ret keyword (some e)) hk.symm h.expr)

theorem reread_block (h : Stmt.RereadAll ss) : (Stmt.block ss).Reread where
  stmt := by
    have word : Symbol.ofText "block" = .identifier := by decide
    exact (stmt_node word _).trans (congrArg Stmt.block h.stmts)
  readable := readable_node (by decide) h.readable

theorem reread_if (he : e.Reread) (h : first.Reread) : (Stmt.cond e first none).Reread where
  stmt := by
    have word : Symbol.ofText "if" = .ifWord := by decide
    exact (stmt_node word _).trans (congrArg₂ (Stmt.cond · · none) he.expr h.stmt)
  readable := readable_node (by decide) (by simp [he.readable, h.readable])

theorem reread_ifElse (he : e.Reread) (h : first.Reread) (h' : second.Reread) :
    (Stmt.cond e first (some second)).Reread where
  stmt := by
    have word : Symbol.ofText "if" = .ifWord := by decide
    show _ = Stmt.cond e.unlined first.unlined (some second.unlined)
    rw [← he.expr, ← h.stmt, ← h'.stmt]
    exact stmt_node word _
  readable := readable_node (by decide) (by simp [he.readable, h.readable, h'.readable])

theorem reread_loop (he : e.Reread) (h : s.Reread) : (Stmt.loop e s).Reread where
  stmt := by
    have word : Symbol.ofText "while" = .whileWord := by decide
    exact (stmt_node word _).trans (congrArg₂ Stmt.loop he.expr h.stmt)
  readable := readable_node (by decide) (by simp [he.readable, h.readable])

theorem reread_nil : Stmt.RereadAll [] := ⟨rfl, nofun⟩

theorem reread_stmts (h : s.Reread) (hs : Stmt.RereadAll ss) : Stmt.RereadAll (s :: ss) where
  stmts := congrArg₂ List.cons h.stmt hs.stmts
  readable := List.forall_mem_cons.mpr ⟨h.readable, hs.readable⟩

/-- The parts of a function behind the head of its node. -/
def functionParts (d : FunctionDecl) : List Form :=
  .atom d.name.lexeme :: .node (d.params.map fun p => .atom p.lexeme) :: Stmt.forms d.body

theorem form_function (kind : String) (d : FunctionDecl) :
    d.form kind = .node (.atom kind :: functionParts d) := by
  cases d
  rfl

theorem functionOf_parts (h : d.Reread) :
    functionOf (functionParts d) (Form.stmts (functionParts d)) = d.unlined := by
  obtain ⟨name, params, body⟩ := d
  have names :
      (params.map fun p => Form.atom p.lexeme).map Form.name = params.map Token.unlined := by
    rw [List.map_map]
    exact List.map_congr_left fun p hp => name_atom (h.params p hp)
  have heading : (Form.atom name.lexeme).name = name.unlined := name_atom h.name
  rw [functionParts, functionOf, names, heading, FunctionDecl.unlined, ← h.body.stmts]
  rfl

theorem readable_function {kind : String} (hk : isAtom kind.toList) (h : d.Reread) :
    (d.form kind).Readable := by
  have params : ∀ x ∈ d.params.map fun p => Form.atom p.lexeme, x.Readable := by
    intro x hx
    obtain ⟨p, hp, rfl⟩ := List.mem_map.mp hx
    exact readable_atom (h.params p hp).atom
  rw [form_function]
  exact readable_node hk (List.forall_mem_cons.mpr ⟨readable_atom h.name.atom,
    List.forall_mem_cons.mpr ⟨.node params, h.body.readable⟩⟩)

theorem reread_function (h : d.Reread) : (Stmt.function d).Reread where
  stmt := by
    have word : Symbol.ofText "function" = .functionWord := by decide
    show (d.form "function").stmt = _
    rw [form_function, stmt_node word]
    exact congrArg Stmt.function (functionOf_parts h)
  readable := readable_function (by decide) h

section Classes

variable {methods statics : List FunctionDecl} {superclass : Option Expr}
  {ms fs : List FunctionDecl}

theorem stmt_method (h : d.Reread) :
    (d.form "method").stmt = .classDecl (.ofText "method") none [d.unlined] [] := by
  have word : Symbol.ofText "method" = .identifier := by decide
  rw [form_function, stmt_node word, ← functionOf_parts h]
  unfold stmtOf
  exact if_neg (by decide)

theorem stmt_static (h : d.Reread) :
    (d.form "static").stmt = .classDecl (.ofText "static") none [] [d.unlined] := by
  have word : Symbol.ofText "static" = .staticWord := by decide
  rw [form_function, stmt_node word, ← functionOf_parts h]
  rfl

theorem stmt_extends (h : e.Reread) :
    (Form.node [.atom "extends", e.form]).stmt =
      .classDecl (.ofText "extends") (some e.unlined) [] [] := by
  have word : Symbol.ofText "extends" = .extendsWord := by decide
  rw [stmt_node word, ← h.expr]
  rfl

theorem stmts_append (xs ys : List Form) :
    Form.stmts (xs ++ ys) = Form.stmts xs ++ Form.stmts ys := by
  induction xs with
  | nil => rfl
  | cons x xs ih => exact congrArg (x.stmt :: ·) ih

/-- The methods are put in front of those that the class has. -/
theorem foldr_methods (h : ∀ d ∈ methods, d.Reread) :
    (Form.stmts (FunctionDecl.forms "method" methods)).foldr addPart
      (.classDecl name superclass ms fs) =
      .classDecl name superclass (FunctionDecl.unlinedAll methods ++ ms) fs := by
  induction methods with
  | nil => rfl
  | cons d ds ih =>
    obtain ⟨hd, hds⟩ := List.forall_mem_cons.mp h
    show addPart (d.form "method").stmt (List.foldr _ _ _) = _
    rw [ih hds, stmt_method hd]
    rfl

theorem foldr_statics (h : ∀ d ∈ statics, d.Reread) :
    (Form.stmts (FunctionDecl.forms "static" statics)).foldr addPart
      (.classDecl name superclass ms fs) =
      .classDecl name superclass ms (FunctionDecl.unlinedAll statics ++ fs) := by
  induction statics with
  | nil => rfl
  | cons d ds ih =>
    obtain ⟨hd, hds⟩ := List.forall_mem_cons.mp h
    show addPart (d.form "static").stmt (List.foldr _ _ _) = _
    rw [ih hds, stmt_static hd]
    rfl

theorem foldr_heritage (h : ∀ e ∈ superclass, e.Reread) :
    (Form.stmts (Expr.heritageForms superclass)).foldr addPart (.classDecl name none ms fs) =
      .classDecl name (superclass.map Expr.unlined) ms fs := by
  cases superclass with
  | none => rfl
  | some e =>
    show addPart (Form.node [.atom "extends", e.form]).stmt _ = _
    rw [stmt_extends (h e rfl)]
    rfl

theorem readable_functions {kind : String} (hk : isAtom kind.toList) (h : ∀ d ∈ methods, d.Reread) :
    ∀ x ∈ FunctionDecl.forms kind methods, x.Readable := by
  induction methods with
  | nil => nofun
  | cons d ds ih =>
    obtain ⟨hd, hds⟩ := List.forall_mem_cons.mp h
    exact List.forall_mem_cons.mpr ⟨readable_function hk hd, ih hds⟩

theorem readable_heritage (h : ∀ e ∈ superclass, e.Reread) :
    ∀ x ∈ Expr.heritageForms superclass, x.Readable := by
  cases superclass with
  | none => nofun
  | some e =>
    rw [Expr.heritageForms, List.forall_mem_singleton]
    exact readable_node (by decide) (by simp [(h e rfl).readable])

theorem reread_class (hn : name.Named) (hs : ∀ e ∈ superclass, e.Reread)
    (hm : ∀ d ∈ methods, d.Reread) (hf : ∀ d ∈ statics, d.Reread) :
    (Stmt.classDecl name superclass methods statics).Reread where
  stmt := by
    have word : Symbol.ofText "class" = .classWord := by decide
    have parts : (Form.stmts (Expr.heritageForms superclass ++
        (FunctionDecl.forms "method" methods ++ FunctionDecl.forms "static" statics))).foldr
          addPart (.classDecl name.unlined none [] []) =
          .classDecl name.unlined (superclass.map Expr.unlined) (FunctionDecl.unlinedAll methods)
            (FunctionDecl.unlinedAll statics) := by
      rw [stmts_append, stmts_append, List.foldr_append, List.foldr_append, foldr_statics hf,
        foldr_methods hm, List.append_nil, List.append_nil, foldr_heritage hs]
    show _ = Stmt.classDecl name.unlined _ _ _
    rw [← parts, ← name_atom hn]
    exact stmt_node word _
  readable := by
    refine readable_node (by decide) (List.forall_mem_cons.mpr ⟨readable_atom hn.atom, ?_⟩)
    simp only [List.forall_mem_append]
    exact ⟨readable_heritage hs, readable_functions (by decide) hm,
      readable_functions (by decide) hf⟩

end Classes

section Clauses

variable {initializer : Option Stmt} {condition step : Option Expr} {body : Stmt}

theorem Perhaps.reread (h : Perhaps value ts) (written : ∀ t ∈ ts, t.Written)
    (plain : Expr.PlainOption value) : ∀ e ∈ value, e.Reread := by
  cases h with
  | none => nofun
  | some h =>
    rintro _ ⟨⟩
    exact h.reread written plain

theorem Initializer.reread (h : Initializer value ts) (written : ∀ t ∈ ts, t.Written)
    (plain : Expr.PlainOption value) : ∀ e ∈ value, e.Reread := by
  cases h with
  | none => nofun
  | some isEqual h =>
    rintro _ ⟨⟩
    exact h.reread (List.forall_mem_cons.mp written).2 plain

theorem LetDecl.reread (h : LetDecl s ts) (written : ∀ t ∈ ts, t.Written) (plain : s.Plain) :
    s.Reread := by
  cases h with
  | mk isLet isName value ends =>
    simp only [List.forall_mem_cons, List.forall_mem_append] at written
    obtain ⟨-, name, front, -⟩ := written
    exact reread_let (name.named isName) (value.reread front plain)

theorem ExprStmt.reread (h : ExprStmt s ts) (written : ∀ t ∈ ts, t.Written) (plain : s.Plain) :
    s.Reread := by
  cases h with
  | mk h ends => exact reread_expr (h.reread (List.forall_mem_append.mp written).1 plain)

theorem Condition.reread (h : Condition e ts) (written : ∀ t ∈ ts, t.Written) (plain : e.Plain) :
    e.Reread := by
  cases h with
  | mk isOpen h isClose =>
    simp only [List.forall_mem_cons, List.forall_mem_append] at written
    exact h.reread written.2.1 plain

theorem Heritage.reread (h : Heritage value ts) (written : ∀ t ∈ ts, t.Written) :
    ∀ e ∈ value, e.Reread := by
  cases h with
  | none => nofun
  | some isExtends isName =>
    rintro _ ⟨⟩
    simp only [List.forall_mem_cons] at written
    exact reread_name (written.2.1.named isName)

theorem Parameters.named {names : List Token} (h : Parameters names ts)
    (written : ∀ t ∈ ts, t.Written) : ∀ p ∈ names, p.Named := by
  induction h with
  | last isName =>
    rw [List.forall_mem_singleton] at written ⊢
    exact written.named isName
  | more isName isComma _ ih =>
    simp only [List.forall_mem_cons] at written
    exact List.forall_mem_cons.mpr ⟨written.1.named isName, ih written.2.2⟩

theorem ParametersOrNone.named {names : List Token} (h : ParametersOrNone names ts)
    (written : ∀ t ∈ ts, t.Written) : ∀ p ∈ names, p.Named := by
  cases h with
  | none => nofun
  | some h => exact h.named written

theorem ForInitializer.reread (h : ForInitializer initializer ts) (written : ∀ t ∈ ts, t.Written)
    (plain : Stmt.PlainOption initializer) : ∀ s ∈ initializer, s.Reread := by
  cases h with
  | none => nofun
  | letDecl h =>
    rintro _ ⟨⟩
    exact h.reread written plain
  | exprStmt h =>
    rintro _ ⟨⟩
    exact h.reread written plain

theorem reread_true : (Expr.literal (.bool true)).Reread :=
  ⟨exprOfAtom_true, readable_atom (by decide)⟩

theorem plain_stepped (h : (stepped body step).Plain) : body.Plain ∧ Expr.PlainOption step := by
  cases step with
  | none => exact ⟨h, trivial⟩
  | some e => exact ⟨h.1, h.2.1⟩

theorem reread_stepped (h : body.Reread) (hs : ∀ e ∈ step, e.Reread) :
    (stepped body step).Reread := by
  cases step with
  | none => exact h
  | some e => exact reread_block (reread_stmts h (reread_stmts (reread_expr (hs e rfl)) reread_nil))

theorem plain_preceded (h : (preceded body initializer).Plain) :
    Stmt.PlainOption initializer ∧ body.Plain := by
  cases initializer with
  | none => exact ⟨trivial, h⟩
  | some s => exact ⟨h.1, h.2.1⟩

theorem reread_preceded (h : body.Reread) (hi : ∀ s ∈ initializer, s.Reread) :
    (preceded body initializer).Reread := by
  cases initializer with
  | none => exact h
  | some s => exact reread_block (reread_stmts (hi s rfl) (reread_stmts h reread_nil))

/-- A `for` statement is read off as the loop that it stands for. -/
theorem reread_for {cs : List Token} (clauses : ForClauses (initializer, condition, step) cs)
    (written : ∀ t ∈ cs, t.Written) (hb : body.Plain → body.Reread)
    (plain : (preceded (.loop (condition.getD (.literal (.bool true))) (stepped body step))
      initializer).Plain) :
    (preceded (.loop (condition.getD (.literal (.bool true))) (stepped body step))
      initializer).Reread := by
  cases clauses with
  | mk isOpen first second isSemicolon third isClose =>
    simp only [List.forall_mem_cons, List.forall_mem_append] at written
    obtain ⟨-, wf, ws, -, wt, -⟩ := written
    obtain ⟨plainFirst, plainCondition, plainBody⟩ := plain_preceded plain
    obtain ⟨plainBody, plainStep⟩ := plain_stepped plainBody
    have condition : (condition.getD (.literal (.bool true))).Reread := by
      cases second with
      | none => exact reread_true
      | some h => exact h.reread ws plainCondition
    exact reread_preceded (reread_loop condition (reread_stepped (hb plainBody)
      (third.reread wt plainStep))) (first.reread wf plainFirst)

end Clauses

/-- What a sentence says can be read off its forms, if all its literals are plain. -/
def Sentence.Reread : Sentence → Prop
  | .declaration s | .statement _ s => s.Plain → s.Reread
  | .declarations ss => Stmt.PlainAll ss → Stmt.RereadAll ss
  | .members methods statics => FunctionDecl.PlainAll methods ∧ FunctionDecl.PlainAll statics →
    (∀ d ∈ methods, d.Reread) ∧ ∀ d ∈ statics, d.Reread
  | .function d => d.Plain → d.Reread

theorem Sentence.Derives.reread {p : Sentence} (h : p.Derives ts) (written : ∀ t ∈ ts, t.Written) :
    p.Reread := by
  induction h with
  | classDecl isClass isName heritage isOpen body isClose ih =>
    simp only [List.forall_mem_cons, List.forall_mem_append] at written
    obtain ⟨-, name, front, -, inside, -⟩ := written
    intro plain
    obtain ⟨methods, statics⟩ := ih inside plain.2
    exact reread_class (name.named isName) (heritage.reread front) methods statics
  | funDecl isFunction _ ih =>
    exact fun plain => reread_function (ih (List.forall_mem_cons.mp written).2 plain)
  | letDecl h => exact fun plain => h.reread written plain
  | constDecl isConst isName isEqual value ends =>
    simp only [List.forall_mem_cons, List.forall_mem_append] at written
    obtain ⟨-, name, -, front, -⟩ := written
    exact fun plain => reread_const (name.named isName) (value.reread front plain)
  | statement _ ih => exact ih written
  | exprStmt h => exact fun plain => h.reread written plain
  | printStmt isPrint h ends =>
    simp only [List.forall_mem_cons, List.forall_mem_append] at written
    exact fun plain => reread_print (h.reread written.2.1 plain)
  | forStmt isFor clauses _ ih =>
    simp only [List.forall_mem_cons, List.forall_mem_append] at written
    obtain ⟨-, front, behind⟩ := written
    exact fun plain => reread_for clauses front (ih behind) plain
  | whileStmt isWhile condition _ ih =>
    simp only [List.forall_mem_cons, List.forall_mem_append] at written
    obtain ⟨-, front, behind⟩ := written
    exact fun plain => reread_loop (condition.reread front plain.1) (ih behind plain.2)
  | ifStmt isIf condition _ ih =>
    simp only [List.forall_mem_cons, List.forall_mem_append] at written
    obtain ⟨-, front, behind⟩ := written
    exact fun plain => reread_if (condition.reread front plain.1) (ih behind plain.2.1)
  | ifElse isIf condition _ isElse _ ih ih' =>
    simp only [List.forall_mem_cons, List.forall_mem_append] at written
    obtain ⟨-, front, middle, -, behind⟩ := written
    exact fun plain => reread_ifElse (condition.reread front plain.1) (ih middle plain.2.1)
      (ih' behind plain.2.2)
  | block isOpen _ isClose ih =>
    simp only [List.forall_mem_cons, List.forall_mem_append] at written
    exact fun plain => reread_block (ih written.2.1 plain)
  | returnStmt isReturn h ends =>
    simp only [List.forall_mem_cons, List.forall_mem_append] at written
    obtain ⟨keyword, front, -⟩ := written
    exact fun plain => reread_return (keyword.unlined_eq_of isReturn (by decide) (by decide))
      (h.reread front plain)
  | noDeclarations => exact fun _ => reread_nil
  | declarations _ _ ih ihMore =>
    obtain ⟨front, behind⟩ := List.forall_mem_append.mp written
    exact fun plain => reread_stmts (ih front plain.1) (ihMore behind plain.2)
  | noMembers => exact fun _ => ⟨nofun, nofun⟩
  | method _ _ ih ihMore =>
    obtain ⟨front, behind⟩ := List.forall_mem_append.mp written
    rintro ⟨⟨plain, methods⟩, statics⟩
    obtain ⟨hm, hs⟩ := ihMore behind ⟨methods, statics⟩
    exact ⟨List.forall_mem_cons.mpr ⟨ih front plain, hm⟩, hs⟩
  | staticMethod isStatic _ _ ih ihMore =>
    simp only [List.forall_mem_cons, List.forall_mem_append] at written
    obtain ⟨-, front, behind⟩ := written
    rintro ⟨methods, plain, statics⟩
    obtain ⟨hm, hs⟩ := ihMore behind ⟨methods, statics⟩
    exact ⟨hm, List.forall_mem_cons.mpr ⟨ih front plain, hs⟩⟩
  | function isName isOpen parameters few isClose isOpenBrace _ isCloseBrace ih =>
    simp only [List.forall_mem_cons, List.forall_mem_append] at written
    obtain ⟨name, -, params, -, -, body, -⟩ := written
    exact fun plain => ⟨name.named isName, parameters.named params, ih body plain⟩

end Grammar

theorem parse_tokens {source : List UInt8} {program : List Stmt} (h : parse source = .ok program) :
    ∃ ts, tokens source = .ok ts ∧ Stmt.ofTokens ts = .ok program := by
  unfold parse scan at h
  cases hs : tokens source with
  | error faults => rw [hs] at h; cases h
  | ok ts =>
    rw [hs] at h
    refine ⟨ts, rfl, ?_⟩
    simp only [Except.mapError, bind, Except.bind] at h
    cases hp : Stmt.ofTokens ts with
    | error errors => rw [hp] at h; cases h
    | ok program' => rw [hp] at h; cases h; rfl

/-- The program of a source can be read off the forms of its statements. -/
theorem parse_reread {source : List UInt8} {program : List Stmt} (h : parse source = .ok program)
    (plain : Stmt.PlainAll program) : Stmt.RereadAll (Stmt.unnumberedAll program) := by
  obtain ⟨ts, scanned, read⟩ := parse_tokens h
  have inside : ∀ t ∈ beforeEnd ts, t.Written := fun t ht =>
    tokens_written scanned t ((List.takeWhile_prefix _).mem ht)
      (by simpa using List.mem_takeWhile_imp ht)
  have derives : (Grammar.Sentence.declarations (Stmt.unnumberedAll program)).Derives
    (beforeEnd ts) :=
    (Grammar.program_read_iff ts _).mpr ⟨program, read, rfl⟩
  exact derives.reread inside ((Stmt.forms_unnumbered program).2 plain)

theorem Stmt.map_printed (ss : List Stmt) :
    (ss.map Stmt.printed).map String.toList = (Stmt.forms ss).map Form.chars := by
  induction ss with
  | nil => rfl
  | cons s ss ih => exact congrArg₂ List.cons s.toList_printed ih

/-- Programs without strings and infinite numbers that are printed alike are one program, up to the
identities of its nodes and the lines of its tokens. -/
theorem print_faithful {source source' : List UInt8} {P Q : List Stmt} (hP : parse source = .ok P)
    (hQ : parse source' = .ok Q) (plain : Stmt.PlainAll P) (plain' : Stmt.PlainAll Q)
    (printed : P.map Stmt.printed = Q.map Stmt.printed) :
    Stmt.unlinedAll (Stmt.unnumberedAll P) = Stmt.unlinedAll (Stmt.unnumberedAll Q) := by
  have reread := parse_reread hP plain
  have reread' := parse_reread hQ plain'
  have texts := congrArg (List.map String.toList) printed
  rw [Stmt.map_printed, Stmt.map_printed, ← (Stmt.forms_unnumbered P).1,
    ← (Stmt.forms_unnumbered Q).1] at texts
  have forms := Form.map_chars_inj reread.readable reread'.readable texts
  calc Stmt.unlinedAll (Stmt.unnumberedAll P)
      = Form.stmts (Stmt.forms (Stmt.unnumberedAll P)) := reread.stmts.symm
    _ = Form.stmts (Stmt.forms (Stmt.unnumberedAll Q)) := by rw [forms]
    _ = Stmt.unlinedAll (Stmt.unnumberedAll Q) := reread'.stmts

namespace CountingLoop

/-- A loop with its clauses in front. -/
def clauses : List UInt8 := Text.encode "for (let i = 1; i < 2; i = i + 1.5) print i;"

/-- The same loop written out, on lines of its own. -/
def blocks : List UInt8 :=
  Text.encode "\x7b let i = 1;\nwhile (i < 2) \x7b print i; i = i + 1.5; \x7d \x7d"

/-- The tree of both, with the identities of its references and the line of the loop. -/
def tree (shown target value line : Nat) : Stmt :=
  let name (line : Nat) : Token := ⟨.symbol .identifier, "i", line⟩
  let literal (whole places : List UInt8) : Expr :=
    .literal (.number (Number.ofNumeral whole places))
  .block [.letDecl (name 1) (some (literal [49] [])),
    .loop (.binary (.var 0 (name line)) ⟨.symbol .less, "<", line⟩ (literal [50] []))
      (.block [.print (.var shown (name line)),
        .expr (.assign target (name line)
          (.binary (.var value (name line)) ⟨.symbol .plus, "+", line⟩ (literal [49] [53])))])]

theorem plain_tree (shown target value line : Nat) :
    Stmt.PlainAll [tree shown target value line] := by
  have one : Number.isFinite (Number.ofNumeral [49] []) := by decide +kernel
  have two : Number.isFinite (Number.ofNumeral [50] []) := by decide +kernel
  have more : Number.isFinite (Number.ofNumeral [49] [53]) := by decide +kernel
  simp only [tree, Stmt.PlainAll, Stmt.Plain, Expr.PlainOption, Expr.Plain, Literal.Plain]
  exact ⟨⟨one, ⟨⟨trivial, two⟩, trivial, ⟨trivial, more⟩, trivial⟩, trivial⟩, trivial⟩

theorem loops_printed_alike :
    parse clauses = .ok [tree 4 3 2 1] ∧ parse blocks = .ok [tree 1 4 3 2] ∧
      Stmt.PlainAll [tree 4 3 2 1] ∧ Stmt.PlainAll [tree 1 4 3 2] ∧
      [tree 4 3 2 1].map Stmt.printed = [tree 1 4 3 2].map Stmt.printed ∧
      Stmt.unlinedAll (Stmt.unnumberedAll [tree 4 3 2 1]) =
        Stmt.unlinedAll (Stmt.unnumberedAll [tree 1 4 3 2]) := by
  have first : parse clauses = .ok [tree 4 3 2 1] := by with_unfolding_all rfl
  have second : parse blocks = .ok [tree 1 4 3 2] := by with_unfolding_all rfl
  have printed : [tree 4 3 2 1].map Stmt.printed = [tree 1 4 3 2].map Stmt.printed := by
    simp only [tree, List.map_cons, List.map_nil, Stmt.printed, Stmt.printedAll, Expr.printed]
  exact ⟨first, second, plain_tree 4 3 2 1, plain_tree 1 4 3 2, printed,
    print_faithful first second (plain_tree 4 3 2 1) (plain_tree 1 4 3 2) printed⟩

end CountingLoop

end ClassScript
