import Vee.Text.Blank

/-!
# Tokens

A token is a kind and the text it stands for. Every kind has a tag, by which token files name it, and
all but numbers and names have a fixed lexeme.
-/

namespace Vee

set_option autoImplicit false

namespace Token

inductive Kind where
  | var
  | func
  | plus
  | minus
  | times
  | divide
  | modulo
  | greater
  | greaterEq
  | less
  | lessEq
  | equal
  | notEqual
  | not
  | or
  | and
  | openParen
  | closeParen
  | openBrace
  | closeBrace
  | ifWord
  | elseWord
  | whileWord
  | forWord
  | number
  | name
  | semicolon
  | print
  | assign
  | ret
  | comma
  deriving DecidableEq, Hashable, Repr, Inhabited

namespace Kind

def all : List Kind :=
  [var, func, plus, minus, times, divide, modulo, greater, greaterEq, less, lessEq, equal, notEqual,
    not, or, and, openParen, closeParen, openBrace, closeBrace, ifWord, elseWord, whileWord, forWord,
    number, name, semicolon, print, assign, ret, comma]

def tag : Kind → String
  | var => "VAR_DEC"
  | func => "FUNC_DEC"
  | plus => "ADD"
  | minus => "SUB"
  | times => "MUL"
  | divide => "DIV"
  | modulo => "MOD"
  | greater => "GT"
  | greaterEq => "GEQ"
  | less => "LT"
  | lessEq => "LEQ"
  | equal => "EQ"
  | notEqual => "NEQ"
  | not => "NOT"
  | or => "OR"
  | and => "AND"
  | openParen => "OPEN_PAREN"
  | closeParen => "CLOSE_PAREN"
  | openBrace => "OPEN_BRACE"
  | closeBrace => "CLOSE_BRACE"
  | ifWord => "IF"
  | elseWord => "ELSE"
  | whileWord => "WHILE"
  | forWord => "FOR"
  | number => "CONST"
  | name => "REF"
  | semicolon => "SEMI"
  | print => "PRINT"
  | assign => "ASSIGN"
  | ret => "RET"
  | comma => "COMMA"

def lexeme? : Kind → Option String
  | var => some "var"
  | func => some "func"
  | plus => some "+"
  | minus => some "-"
  | times => some "*"
  | divide => some "/"
  | modulo => some "%"
  | greater => some ">"
  | greaterEq => some ">="
  | less => some "<"
  | lessEq => some "<="
  | equal => some "=="
  | notEqual => some "!="
  | not => some "!"
  | or => some "||"
  | and => some "&&"
  | openParen => some "("
  | closeParen => some ")"
  | openBrace => some "\x7b"
  | closeBrace => some "\x7d"
  | ifWord => some "if"
  | elseWord => some "else"
  | whileWord => some "while"
  | forWord => some "for"
  | number => none
  | name => none
  | semicolon => some ";"
  | print => some "print"
  | assign => some "="
  | ret => some "return"
  | comma => some ","

def ofTag? (s : String) : Option Kind := all.find? fun k => k.tag == s

def ofLexeme? (s : String) : Option Kind := all.find? fun k => k.lexeme? == some s

end Kind

end Token

structure Token where
  kind : Token.Kind
  text : String
  deriving DecidableEq, Repr, Inhabited

namespace Token

/-- The line that stands for a token in a token file. -/
def line (t : Token) : String := t.kind.tag ++ " " ++ t.text

end Token

end Vee
