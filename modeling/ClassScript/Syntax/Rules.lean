import ClassScript.Syntax.Reading

/-! The grammar, one function for each rule. One token ahead decides between the alternatives of a
rule. A declaration that fails gives up the tokens up to the next place where a statement may
begin. -/
namespace ClassScript

/-- The most parameters and the most arguments there may be. -/
def maxArguments : Nat := 255

/-- A level of binary operators, which associate to the left. -/
structure Level where
  symbols : List Symbol
  node : Expr → Token → Expr → Expr

def Level.holds (level : Level) (t : Token) : Bool := level.symbols.any t.is

/-- The levels of binary operators, from the loosest to the tightest. -/
def levels : List Level :=
  [⟨[.coalesce], .binary⟩,
    ⟨[.orWord], .logical⟩,
    ⟨[.andWord], .logical⟩,
    ⟨[.bangEqual, .equalEqual], .binary⟩,
    ⟨[.greater, .greaterEqual, .less, .lessEqual], .binary⟩,
    ⟨[.minus, .plus], .binary⟩,
    ⟨[.star, .slash, .mod], .binary⟩]

def isUnaryOperator (t : Token) : Bool := t.is .bang || t.is .doubleBang || t.is .minus

/-- The keywords with which a statement or a declaration begins. -/
def startsStatement (t : Token) : Bool :=
  [.classWord, .functionWord, .letWord, .constWord, .forWord, .ifWord, .whileWord, .printWord,
    .returnWord].any t.is

/-- Skips to the end of the statement in which `last` stands: behind a semicolon or in front of a
keyword that begins a statement. -/
def resumeAfter (last : Token) : List Token → List Token
  | [] => []
  | t :: rest => if last.is .semicolon || startsStatement t then t :: rest else resumeAfter t rest

/-- Skips at least one token, to a place where a statement may begin. -/
def synchronize : List Token → List Token
  | [] => []
  | t :: rest => resumeAfter t rest

theorem resumeAfter_length_le (last : Token) (ts : List Token) :
    (resumeAfter last ts).length ≤ ts.length := by
  fun_induction resumeAfter last ts with
  | case1 => simp
  | case2 => simp
  | case3 _ t rest _ ih => simp; omega

theorem synchronize_length_le (ts : List Token) : (synchronize ts).length ≤ ts.length := by
  cases ts with
  | nil => simp [synchronize]
  | cons t rest => have := resumeAfter_length_le t rest; simp [synchronize]; omega

theorem synchronize_length_lt (t : Token) (rest : List Token) :
    (synchronize (t :: rest)).length < (t :: rest).length := by
  have := resumeAfter_length_le t rest
  simp [synchronize]; omega

/-- The expression that assigns to a name or to a property, with the next free identity. -/
def Expr.assigned? (target value : Expr) (nextId : Nat) : Option (Expr × Nat) :=
  match target with
  | .var _ name => some (.assign nextId name value, nextId + 1)
  | .property object name => some (.setProperty object name value, nextId)
  | _ => none

/-- The line of the next token, or of the end of the source. -/
def lineAt (endLine : Nat) : List Token → Nat
  | [] => endLine
  | t :: _ => t.line

/-- Takes the next token, which has to be this symbol. -/
def expect (endLine : Nat) (s : Symbol) (cause : SyntaxFault) (nextId : Nat) (ts : List Token) :
    Reading Token ts.length :=
  match ts with
  | t :: rest => if t.is s then .done t nextId rest else .failed ⟨cause, t.line⟩ (t :: rest)
  | [] => .failed ⟨cause, endLine⟩ []

/-- The parameters that follow `count` others. -/
def parameterList (endLine line count nextId : Nat) (ts : List Token) :
    Reading (List Token) ts.length :=
  if maxArguments ≤ count then .failed ⟨.tooManyParameters, line⟩ ts
  else
    (expect endLine .identifier .parameterName nextId ts).andThen fun parameter nextId rest _ =>
      match rest with
      | t :: more =>
        if t.is .comma then
          (parameterList endLine line (count + 1) nextId more).map (parameter :: ·)
        else .done [parameter] nextId (t :: more)
      | [] => .done [parameter] nextId []
termination_by ts.length
decreasing_by simp only [List.length_cons] at *; omega

/-- The parameters up to the closing parenthesis; `line` is that of the routine's name. -/
def parameters (endLine line nextId : Nat) (ts : List Token) :
    Reading (List Token) (ts.length + 1) :=
  match ts with
  | t :: rest =>
    if t.is .rightParen then .done [] nextId (t :: rest)
    else (parameterList endLine line 0 nextId (t :: rest)).within
  | [] => (parameterList endLine line 0 nextId []).within

mutual

/-- An assignment, which associates to the right, or what its target could be. -/
def expression (endLine nextId : Nat) (ts : List Token) : Reading Expr ts.length :=
  (operators endLine levels nextId ts).andThen fun target nextId rest _ =>
    match rest with
    | equals :: more =>
      if equals.is .equal then
        (expression endLine nextId more).andThen fun value nextId rest _ =>
          match target.assigned? value nextId with
          | some (e, nextId) => .done e nextId rest
          | none => .failed ⟨.assignmentTarget, equals.line⟩ rest
      else .done target nextId (equals :: more)
    | [] => .done target nextId []
termination_by ts.length * 20 + 11
decreasing_by all_goals (simp only [List.length_cons, List.length_nil, levels] at *; omega)

/-- The operators of the given levels and what they join. -/
def operators (endLine : Nat) (levels : List Level) (nextId : Nat) (ts : List Token) :
    Reading Expr ts.length :=
  match levels with
  | [] => unary endLine nextId ts
  | level :: tighter =>
    (operators endLine tighter nextId ts).andThen fun left nextId rest _ =>
      (operatorChain endLine level tighter left nextId rest).within
termination_by ts.length * 20 + 3 + levels.length
decreasing_by all_goals (simp only [List.length_cons, List.length_nil] at *; omega)

/-- The operators of one level that follow a left operand. -/
def operatorChain (endLine : Nat) (level : Level) (tighter : List Level) (left : Expr)
    (nextId : Nat) (ts : List Token) : Reading Expr (ts.length + 1) :=
  match ts with
  | operator :: rest =>
    if level.holds operator then
      (operators endLine tighter nextId rest).andThen fun right nextId rest _ =>
        (operatorChain endLine level tighter (level.node left operator right) nextId rest).within
    else .done left nextId (operator :: rest)
  | [] => .done left nextId []
termination_by ts.length * 20 + 4 + tighter.length
decreasing_by all_goals (simp only [List.length_cons] at *; omega)

def unary (endLine nextId : Nat) (ts : List Token) : Reading Expr ts.length :=
  match ts with
  | operator :: rest =>
    if isUnaryOperator operator then (unary endLine nextId rest).map (.unary operator)
    else postfixed endLine nextId (operator :: rest)
  | [] => postfixed endLine nextId []
termination_by ts.length * 20 + 2
decreasing_by all_goals (simp only [List.length_cons, List.length_nil] at *; omega)

/-- A primary expression with the calls and the property accesses behind it. -/
def postfixed (endLine nextId : Nat) (ts : List Token) : Reading Expr ts.length :=
  (primary endLine nextId ts).andThen fun e nextId rest _ =>
    (suffixes endLine e nextId rest).within
termination_by ts.length * 20 + 1
decreasing_by all_goals omega

/-- The calls and the property accesses that follow an expression. -/
def suffixes (endLine : Nat) (e : Expr) (nextId : Nat) (ts : List Token) :
    Reading Expr (ts.length + 1) :=
  match ts with
  | t :: rest =>
    if t.is .leftParen then
      (arguments endLine nextId rest).andThen fun (arguments, paren) nextId rest _ =>
        (suffixes endLine (.call e paren arguments) nextId rest).within
    else if t.is .dot then
      (expect endLine .identifier .propertyName nextId rest).andThen fun name nextId rest _ =>
        (suffixes endLine (.property e name) nextId rest).within
    else .done e nextId (t :: rest)
  | [] => .done e nextId []
termination_by ts.length * 20
decreasing_by all_goals (simp only [List.length_cons] at *; omega)

/-- The arguments of a call and its closing parenthesis. -/
def arguments (endLine nextId : Nat) (ts : List Token) : Reading (List Expr × Token) ts.length :=
  match ts with
  | t :: rest =>
    if t.is .rightParen then .done ([], t) nextId rest
    else argumentList endLine 0 nextId (t :: rest)
  | [] => argumentList endLine 0 nextId []
termination_by ts.length * 20 + 13
decreasing_by all_goals (simp only [List.length_cons, List.length_nil] at *; omega)

/-- The arguments that follow `count` others. -/
def argumentList (endLine count nextId : Nat) (ts : List Token) :
    Reading (List Expr × Token) ts.length :=
  if maxArguments ≤ count then .failed ⟨.tooManyArguments, lineAt endLine ts⟩ ts
  else
    (expression endLine nextId ts).andThen fun argument nextId rest _ =>
      match rest with
      | t :: more =>
        if t.is .comma then
          (argumentList endLine (count + 1) nextId more).map fun (arguments, paren) =>
            (argument :: arguments, paren)
        else if t.is .rightParen then .done ([argument], t) nextId more
        else .failed ⟨.argumentsClose, t.line⟩ (t :: more)
      | [] => .failed ⟨.argumentsClose, endLine⟩ []
termination_by ts.length * 20 + 12
decreasing_by all_goals (try simp only [List.length_cons] at *); omega

def primary (endLine nextId : Nat) (ts : List Token) : Reading Expr ts.length :=
  match ts with
  | t :: rest =>
    match t.kind with
    | .number value => .done (.literal (.number value)) nextId rest
    | .string text => .done (.literal (.string text)) nextId rest
    | .symbol .falseWord => .done (.literal (.bool false)) nextId rest
    | .symbol .trueWord => .done (.literal (.bool true)) nextId rest
    | .symbol .nullWord => .done (.literal .null) nextId rest
    | .symbol .thisWord => .done (.thisRef nextId t) (nextId + 1) rest
    | .symbol .superWord =>
      (expect endLine .dot .superDot nextId rest).andThen fun _ nextId rest _ =>
        (expect endLine .identifier .superMethodName nextId rest).andThen fun name nextId rest _ =>
          .done (.superMethod nextId t name) (nextId + 1) rest
    | .symbol .identifier => .done (.var nextId t) (nextId + 1) rest
    | .symbol .leftParen =>
      (expression endLine nextId rest).andThen fun inner nextId rest _ =>
        (expect endLine .rightParen .groupClose nextId rest).map fun _ => .group inner
    | .symbol _ => .failed ⟨.expression, t.line⟩ (t :: rest)
  | [] => .failed ⟨.expression, endLine⟩ []
termination_by ts.length * 20
decreasing_by all_goals (simp only [List.length_cons] at *; omega)

end

/-- An expression, unless the next token is the one that stands behind it. -/
def optionalExpression (endLine : Nat) (stop : Symbol) (nextId : Nat) (ts : List Token) :
    Reading (Option Expr) (ts.length + 1) :=
  match ts with
  | t :: rest =>
    if t.is stop then .done none nextId (t :: rest)
    else (expression endLine nextId (t :: rest)).map some
  | [] => (expression endLine nextId []).map some

/-- What follows the name of a variable. -/
def letInitializer (endLine nextId : Nat) (ts : List Token) :
    Reading (Option Expr) (ts.length + 1) :=
  match ts with
  | t :: rest =>
    if t.is .equal then (expression endLine nextId rest).map some
    else .done none nextId (t :: rest)
  | [] => .done none nextId []

/-- What follows `let`. -/
def letDeclaration (endLine nextId : Nat) (ts : List Token) : Reading Stmt ts.length :=
  (expect endLine .identifier .variableName nextId ts).andThen fun name nextId rest _ =>
    (letInitializer endLine nextId rest).andThen fun initializer nextId rest _ =>
      (expect endLine .semicolon .variableEnd nextId rest).map fun _ => .letDecl name initializer

/-- What follows `const`. -/
def constDeclaration (endLine nextId : Nat) (ts : List Token) : Reading Stmt ts.length :=
  (expect endLine .identifier .constantName nextId ts).andThen fun name nextId rest _ =>
    (expect endLine .equal (.constantValue name.lexeme) nextId rest).andThen fun _ nextId rest _ =>
      (expression endLine nextId rest).andThen fun value nextId rest _ =>
        (expect endLine .semicolon .constantEnd nextId rest).map fun _ => .constDecl name value

def expressionStatement (endLine nextId : Nat) (ts : List Token) : Reading Stmt ts.length :=
  (expression endLine nextId ts).andThen fun e nextId rest _ =>
    (expect endLine .semicolon .expressionEnd nextId rest).map fun _ => .expr e

/-- What follows `print`. -/
def printStatement (endLine nextId : Nat) (ts : List Token) : Reading Stmt ts.length :=
  (expression endLine nextId ts).andThen fun e nextId rest _ =>
    (expect endLine .semicolon .printEnd nextId rest).map fun _ => .print e

/-- What follows `return`, which is the given token. -/
def returnStatement (endLine : Nat) (keyword : Token) (nextId : Nat) (ts : List Token) :
    Reading Stmt (ts.length + 1) :=
  (optionalExpression endLine .semicolon nextId ts).andThen fun value nextId rest _ =>
    (expect endLine .semicolon .returnEnd nextId rest).map fun _ => .ret keyword value

/-- The first clause of a `for` statement, with its semicolon. -/
def forInitializer (endLine nextId : Nat) (ts : List Token) :
    Reading (Option Stmt) ts.length :=
  match ts with
  | t :: rest =>
    if t.is .semicolon then .done none nextId rest
    else if t.is .letWord then (letDeclaration endLine nextId rest).map some
    else (expressionStatement endLine nextId (t :: rest)).map some
  | [] => (expressionStatement endLine nextId []).map some

/-- The clauses of a `for` statement, in parentheses. -/
def forClauses (endLine nextId : Nat) (ts : List Token) :
    Reading (Option Stmt × Option Expr × Option Expr) ts.length :=
  (expect endLine .leftParen .forOpen nextId ts).andThen fun _ nextId rest _ =>
    (forInitializer endLine nextId rest).andThen fun initializer nextId rest _ =>
      (optionalExpression endLine .semicolon nextId rest).andThen fun condition nextId rest _ =>
        (expect endLine .semicolon .forConditionEnd nextId rest).andThen fun _ nextId rest _ =>
          (optionalExpression endLine .rightParen nextId rest).andThen fun step nextId rest _ =>
            (expect endLine .rightParen .forClose nextId rest).map fun _ =>
              (initializer, condition, step)

/-- A condition in parentheses. -/
def condition (endLine : Nat) (missing : SyntaxFault) (nextId : Nat) (ts : List Token) :
    Reading Expr ts.length :=
  (expect endLine .leftParen missing nextId ts).andThen fun _ nextId rest _ =>
    (expression endLine nextId rest).andThen fun e nextId rest _ =>
      (expect endLine .rightParen .conditionClose nextId rest).map fun _ => e

/-- The class that a class extends, if any. -/
def superclassClause (endLine nextId : Nat) (ts : List Token) :
    Reading (Option Expr) (ts.length + 1) :=
  match ts with
  | t :: rest =>
    if t.is .extendsWord then
      (expect endLine .identifier .superclassName nextId rest).andThen fun name nextId rest _ =>
        .done (some (.var nextId name)) (nextId + 1) rest
    else .done none nextId (t :: rest)
  | [] => .done none nextId []

/-- The name of a class and that of the class it extends, up to the opening brace. -/
def classHeading (endLine nextId : Nat) (ts : List Token) :
    Reading (Token × Option Expr) ts.length :=
  (expect endLine .identifier .className nextId ts).andThen fun name nextId rest _ =>
    (superclassClause endLine nextId rest).andThen fun superclass nextId rest _ =>
      (expect endLine .leftBrace .classOpen nextId rest).map fun _ => (name, superclass)

/-- The name and the parameters of a routine, up to the opening brace. -/
def routineHeading (endLine : Nat) (routine : Routine) (nextId : Nat) (ts : List Token) :
    Reading (Token × List Token) ts.length :=
  (expect endLine .identifier (.routineName routine) nextId ts).andThen fun name nextId rest _ =>
    (expect endLine .leftParen (.routineParen routine) nextId rest).andThen fun _ nextId rest _ =>
      (parameters endLine name.line nextId rest).andThen fun parameters nextId rest _ =>
        (expect endLine .rightParen .parametersClose nextId rest).andThen fun _ nextId rest _ =>
          (expect endLine .leftBrace (.routineOpen routine) nextId rest).map fun _ =>
            (name, parameters)

mutual

/-- A declaration or a statement. A failure leaves what it has not read. -/
def declaration (endLine nextId : Nat) (ts : List Token) : Reading Stmt ts.length :=
  match ts with
  | t :: rest =>
    if t.is .classWord then
      (classHeading endLine nextId rest).andThen fun (name, superclass) nextId rest _ =>
        (members endLine nextId rest).map fun (methods, statics) =>
          .classDecl name superclass methods statics
    else if t.is .functionWord then (routine endLine .function nextId rest).map .function
    else if t.is .letWord then (letDeclaration endLine nextId rest).within
    else if t.is .constWord then (constDeclaration endLine nextId rest).within
    else statement endLine nextId (t :: rest)
  | [] => statement endLine nextId []
termination_by ts.length * 4 + 1
decreasing_by all_goals (simp only [List.length_cons, List.length_nil] at *; omega)

def statement (endLine nextId : Nat) (ts : List Token) : Reading Stmt ts.length :=
  match ts with
  | t :: rest =>
    if t.is .forWord then
      (forClauses endLine nextId rest).andThen fun (initializer, condition, step) nextId rest _ =>
        (statement endLine nextId rest).map (.forLoop initializer condition step)
    else if t.is .ifWord then
      (condition endLine .ifOpen nextId rest).andThen fun condition nextId rest _ =>
        (statement endLine nextId rest).andThen fun thenBranch nextId rest _ =>
          (elseClause endLine nextId rest).map (.cond condition thenBranch)
    else if t.is .whileWord then
      (condition endLine .whileOpen nextId rest).andThen fun condition nextId rest _ =>
        (statement endLine nextId rest).map (.loop condition)
    else if t.is .returnWord then (returnStatement endLine t nextId rest).within
    else if t.is .leftBrace then (block endLine nextId rest).map .block
    else if t.is .printWord then (printStatement endLine nextId rest).within
    else expressionStatement endLine nextId (t :: rest)
  | [] => expressionStatement endLine nextId []
termination_by ts.length * 4
decreasing_by all_goals (simp only [List.length_cons] at *; omega)

/-- The branch behind `else`, if there is one. It belongs to the nearest `if`. -/
def elseClause (endLine nextId : Nat) (ts : List Token) :
    Reading (Option Stmt) (ts.length + 1) :=
  match ts with
  | t :: rest =>
    if t.is .elseWord then (statement endLine nextId rest).map some
    else .done none nextId (t :: rest)
  | [] => .done none nextId []
termination_by ts.length * 4
decreasing_by all_goals (simp only [List.length_cons] at *; omega)

/-- The declarations of a block and its closing brace. A declaration that fails skips to a place
where a statement may begin, and the block fails with it. -/
def block (endLine nextId : Nat) (ts : List Token) : Reading (List Stmt) ts.length :=
  match ts with
  | t :: rest =>
    if t.is .rightBrace then .done [] nextId rest
    else
      let first := declaration endLine nextId (t :: rest)
      (first.recover synchronize synchronize_length_le).andThen fun first nextId rest _ =>
        (block endLine nextId rest).map (first :: ·)
  | [] => .failed ⟨.blockClose, endLine⟩ []
termination_by ts.length * 4 + 2
decreasing_by all_goals (simp only [List.length_cons] at *; omega)

/-- The methods and the static methods of a class, and its closing brace. -/
def members (endLine nextId : Nat) (ts : List Token) :
    Reading (List FunctionDecl × List FunctionDecl) ts.length :=
  match ts with
  | t :: rest =>
    if t.is .rightBrace then .done ([], []) nextId rest
    else if t.is .staticWord then
      (routine endLine .staticMethod nextId rest).andThen fun first nextId rest _ =>
        (members endLine nextId rest).map fun (methods, statics) => (methods, first :: statics)
    else
      (routine endLine .method nextId (t :: rest)).andThen fun first nextId rest _ =>
        (members endLine nextId rest).map fun (methods, statics) => (first :: methods, statics)
  | [] => .failed ⟨.classClose, endLine⟩ []
termination_by ts.length * 4 + 1
decreasing_by all_goals (simp only [List.length_cons] at *; omega)

/-- A function, a method or a static method, from its name on. -/
def routine (endLine : Nat) (kind : Routine) (nextId : Nat) (ts : List Token) :
    Reading FunctionDecl ts.length :=
  (routineHeading endLine kind nextId ts).andThen fun (name, parameters) nextId rest _ =>
    (block endLine nextId rest).map (⟨name, parameters, ·⟩)
termination_by ts.length * 4
decreasing_by all_goals omega

end

end ClassScript
