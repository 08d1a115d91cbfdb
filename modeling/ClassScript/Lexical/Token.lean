import ClassScript.Json

/-! Tokens: the symbols of the language, and the literals that carry a value. -/
namespace ClassScript

/-- The tokens without a value: punctuation, operators, keywords, names and the end of the
source. -/
inductive Symbol where
  | leftParen | rightParen | leftBrace | rightBrace | comma | dot | minus | plus | mod | semicolon
  | slash | star | coalesce | bang | doubleBang | bangEqual | equal | equalEqual | greater
  | greaterEqual | less | lessEqual | identifier
  | andWord | classWord | constWord | elseWord | extendsWord | falseWord | forWord | functionWord
  | ifWord | letWord | nullWord | orWord | printWord | returnWord | staticWord | superWord
  | thisWord | trueWord | whileWord | endOfSource
  deriving DecidableEq, Repr

namespace Symbol

def name : Symbol → String
  | leftParen => "LEFT_PAREN"
  | rightParen => "RIGHT_PAREN"
  | leftBrace => "LEFT_BRACE"
  | rightBrace => "RIGHT_BRACE"
  | comma => "COMMA"
  | dot => "DOT"
  | minus => "MINUS"
  | plus => "PLUS"
  | mod => "MOD"
  | semicolon => "SEMICOLON"
  | slash => "SLASH"
  | star => "STAR"
  | coalesce => "NULL_COALESCING"
  | bang => "BANG"
  | doubleBang => "DOUBLE_BANG"
  | bangEqual => "BANG_EQUAL"
  | equal => "EQUAL"
  | equalEqual => "EQUAL_EQUAL"
  | greater => "GREATER"
  | greaterEqual => "GREATER_EQUAL"
  | less => "LESS"
  | lessEqual => "LESS_EQUAL"
  | identifier => "IDENTIFIER"
  | andWord => "AND"
  | classWord => "CLASS"
  | constWord => "CONST"
  | elseWord => "ELSE"
  | extendsWord => "EXTENDS"
  | falseWord => "FALSE"
  | forWord => "FOR"
  | functionWord => "FUNCTION"
  | ifWord => "IF"
  | letWord => "LET"
  | nullWord => "NULL"
  | orWord => "OR"
  | printWord => "PRINT"
  | returnWord => "RETURN"
  | staticWord => "STATIC"
  | superWord => "SUPER"
  | thisWord => "THIS"
  | trueWord => "TRUE"
  | whileWord => "WHILE"
  | endOfSource => "EOF"

def all : List Symbol :=
  [leftParen, rightParen, leftBrace, rightBrace, comma, dot, minus, plus, mod, semicolon, slash,
    star, coalesce, bang, doubleBang, bangEqual, equal, equalEqual, greater, greaterEqual, less,
    lessEqual, identifier, andWord, classWord, constWord, elseWord, extendsWord, falseWord, forWord,
    functionWord, ifWord, letWord, nullWord, orWord, printWord, returnWord, staticWord, superWord,
    thisWord, trueWord, whileWord, endOfSource]

theorem mem_all (s : Symbol) : s ∈ all := by cases s <;> decide

def ofName? (text : String) : Option Symbol := all.find? (·.name == text)

/-- The words that are no names, and the symbols they stand for. -/
def keywords : List (String × Symbol) :=
  [("and", andWord), ("class", classWord), ("const", constWord), ("else", elseWord),
    ("extends", extendsWord), ("false", falseWord), ("for", forWord), ("function", functionWord),
    ("if", ifWord), ("let", letWord), ("mod", mod), ("null", nullWord), ("or", orWord),
    ("print", printWord), ("return", returnWord), ("static", staticWord), ("super", superWord),
    ("this", thisWord), ("true", trueWord), ("while", whileWord)]

/-- The symbol of a word. -/
def ofWord (word : String) : Symbol := (keywords.lookup word).getD identifier

/-- Operators and punctuation of one character. -/
def singles : List (Char × Symbol) :=
  [('(', leftParen), (')', rightParen), ('\x7b', leftBrace), ('\x7d', rightBrace), (',', comma),
    ('.', dot), ('-', minus), ('+', plus), (';', semicolon), ('*', star), ('%', mod), ('!', bang),
    ('=', equal), ('<', less), ('>', greater), ('/', slash)]

/-- Operators of two characters. -/
def pairs : List ((Char × Char) × Symbol) :=
  [(('!', '!'), doubleBang), (('!', '='), bangEqual), (('=', '='), equalEqual),
    (('<', '='), lessEqual), (('>', '='), greaterEqual), (('?', '?'), coalesce)]

end Symbol

inductive TokenKind where
  | symbol (s : Symbol)
  | string (text : String)
  | number (value : Float)

namespace TokenKind

def name : TokenKind → String
  | symbol s => s.name
  | string _ => "STRING"
  | number _ => "NUMBER"

/-- Two kinds are alike when they differ at most in the value of a literal. -/
def alike : TokenKind → TokenKind → Bool
  | symbol s, symbol t => s == t
  | string _, string _ => true
  | number _, number _ => true
  | _, _ => false

end TokenKind

/-- A token, the text it was read from and the line on which that text ends. -/
structure Token where
  kind : TokenKind
  lexeme : String
  line : Nat

namespace Token

/-- The token is this symbol. -/
def is (t : Token) (s : Symbol) : Bool :=
  match t.kind with
  | .symbol s' => s' == s
  | _ => false

/-- Tokens are alike when their texts and lines are equal and their kinds alike. -/
def alike (t u : Token) : Bool :=
  t.kind.alike u.kind && t.lexeme == u.lexeme && t.line == u.line

theorem is_iff {t : Token} {s : Symbol} : t.is s ↔ t.kind = .symbol s := by
  unfold is
  split <;> simp_all

def literal (t : Token) : String :=
  match t.kind with
  | .symbol _ => "null"
  | .string text => text
  | .number value => Number.tokenLiteral value

/-- The name of the token's kind, its text and its literal. -/
def display (t : Token) : String := t.kind.name ++ " " ++ t.lexeme ++ " " ++ t.literal

def toJson (t : Token) : Json :=
  let kind :=
    match t.kind with
    | .symbol s => .string s.name
    | .string text => .object [("STRING", .string text)]
    | .number value => .object [("NUMBER", .double value)]
  .object [("token_type", kind), ("lexeme", .string t.lexeme), ("line", .whole t.line)]

end Token

end ClassScript
