import Vee.Diagnostic
import Vee.Token

/-!
# Lexing

A source text is cut into pieces: gaps (blanks and comments), tokens, and what is neither. Each piece
keeps its characters, so that the pieces of a text make up the text. Lexing stops at the first piece
that is neither gap nor token.
-/

namespace Vee.Token

set_option autoImplicit false

namespace Lexer

/-- Blanks of the language; the vertical tab is none. -/
def isSpace (c : Char) : Bool :=
  c == ' ' || c == '\t' || c == '\n' || c == '\x0c' || c == '\r'

def isLetterOrDigit (c : Char) : Bool := c.isAlpha || c.isDigit

/-- The number of bytes of a text in UTF-8. -/
def byteSize : List Char → Nat
  | [] => 0
  | c :: cs => c.utf8Size + byteSize cs

inductive Piece where
  | gap (text : List Char)
  | token (kind : Kind) (text : List Char)
  | malformed (text : List Char)
  | unterminated (text : List Char)

namespace Piece

def text : Piece → List Char
  | gap t => t
  | token _ t => t
  | malformed t => t
  | unterminated t => t

end Piece

/-- Cuts a text after its first line feed. -/
def cutLine : List Char → List Char × List Char
  | [] => ([], [])
  | c :: cs =>
    if c = '\n' then ([c], cs)
    else
      let (line, rest) := cutLine cs
      (c :: line, rest)

/-- Cuts a text after its first star and slash, if there is one. -/
def cutComment : List Char → Option (List Char × List Char)
  | [] => none
  | '*' :: '/' :: cs => some (['*', '/'], cs)
  | c :: cs => (cutComment cs).map fun (body, rest) => (c :: body, rest)

/-- A run of digits. With letters directly behind it, all of it is malformed. -/
def number (cs : List Char) : Piece × List Char :=
  let digits := cs.takeWhile Char.isDigit
  let rest := cs.dropWhile Char.isDigit
  if rest.head?.any Char.isAlpha then
    (.malformed (digits ++ rest.takeWhile isLetterOrDigit), rest.dropWhile isLetterOrDigit)
  else (.token .number digits, rest)

/-- A run of letters and digits: a word of the language or a name. -/
def word (cs : List Char) : Piece × List Char :=
  let run := cs.takeWhile isLetterOrDigit
  let kind := (Kind.ofLexeme? (String.ofList run)).getD .name
  (.token kind run, cs.dropWhile isLetterOrDigit)

/-- An operator or a mark of one character. -/
def shortMark (c : Char) : Piece :=
  match Kind.ofLexeme? (String.ofList [c]) with
  | some kind => .token kind [c]
  | none => .malformed [c]

/-- An operator or a mark, of two characters if they make a lexeme. -/
def mark (c : Char) : List Char → Piece × List Char
  | [] => (shortMark c, [])
  | d :: rest =>
    match Kind.ofLexeme? (String.ofList [c, d]) with
    | some kind => (.token kind [c, d], rest)
    | none => (shortMark c, d :: rest)

/-- The piece at the front of a text that is not empty, and what follows it. -/
def next (c : Char) (cs : List Char) : Piece × List Char :=
  if isSpace c then (.gap [c], cs)
  else if c = '#' then
    let (line, rest) := cutLine cs
    (.gap (c :: line), rest)
  else if c = '/' && cs.head? == some '*' then
    match cutComment cs.tail with
    | some (body, rest) => (.gap (c :: '*' :: body), rest)
    | none => (.unterminated (c :: cs), [])
  else if c.isDigit then number (c :: cs)
  else if c.isAlpha then word (c :: cs)
  else mark c cs

theorem cutLine_append (cs : List Char) : (cutLine cs).1 ++ (cutLine cs).2 = cs := by
  induction cs with
  | nil => rfl
  | cons c cs ih =>
    rw [cutLine]
    split
    · rfl
    · simpa using ih

theorem cutComment_append (cs : List Char) {body rest : List Char}
    (h : cutComment cs = some (body, rest)) : body ++ rest = cs := by
  fun_induction cutComment cs generalizing body with
  | case1 => cases h
  | case2 cs => cases h; rfl
  | case3 c cs _ ih =>
    obtain ⟨⟨b, r⟩, hcut, heq⟩ := Option.map_eq_some_iff.mp h
    cases heq
    simpa using ih hcut

theorem shortMark_text (c : Char) : (shortMark c).text = [c] := by
  rw [shortMark]
  split <;> rfl

theorem mark_append (c : Char) (cs : List Char) :
    (mark c cs).1.text ++ (mark c cs).2 = c :: cs := by
  fun_cases mark c cs
  · simp [shortMark_text]
  · rfl
  · simp [shortMark_text]

/-- A piece and what follows it make up the text. -/
theorem next_append (c : Char) (cs : List Char) :
    (next c cs).1.text ++ (next c cs).2 = c :: cs := by
  rw [next]
  split
  · rfl
  split
  · simpa [Piece.text] using cutLine_append cs
  split
  · rename_i hOpen
    have hHead : cs.head? = some '*' := by simp_all
    obtain ⟨tail, rfl⟩ : ∃ tail, cs = '*' :: tail := by
      cases cs <;> simp_all
    split
    · rename_i hCut
      simpa [Piece.text] using cutComment_append _ hCut
    · simp [Piece.text]
  split
  · rw [number]
    split
    · simp [Piece.text]
    · simp [Piece.text]
  split
  · simp [word, Piece.text]
  · exact mark_append c cs

/-- No piece is empty. -/
theorem next_text_ne_nil (c : Char) (cs : List Char) : (next c cs).1.text ≠ [] := by
  rw [next]
  split
  · simp [Piece.text]
  split
  · simp [Piece.text]
  split
  · split <;> simp [Piece.text]
  split
  · rename_i hDigit
    rw [number]
    split <;> simp [Piece.text, hDigit]
  split
  · rename_i hAlpha
    simp [word, Piece.text, isLetterOrDigit, hAlpha]
  · fun_cases mark c cs
    · simp [shortMark_text]
    · simp [Piece.text]
    · simp [shortMark_text]

theorem length_next (c : Char) (cs : List Char) : (next c cs).2.length < (c :: cs).length := by
  have hLength := congrArg List.length (next_append c cs)
  have hText := List.length_pos_iff.mpr (next_text_ne_nil c cs)
  rw [List.length_append] at hLength
  omega

end Lexer

inductive LexError where
  | malformed (span : Span) (text : String)
  | unterminatedComment (start : Nat)
  deriving DecidableEq, Repr

def LexError.diagnostic : LexError → Diagnostic
  | .malformed span text => { code := .lexical, span := span, detail := text }
  | .unterminatedComment start =>
    { code := .lexical, span := ⟨start, start + 2⟩, detail := "UNTERMINATED COMMENT" }

namespace Lexer

/-- The tokens of a text that starts at a byte offset of the source. -/
def scan (offset : Nat) (cs : List Char) : Except LexError (List Token) :=
  match cs with
  | [] => .ok []
  | c :: cs =>
    let cut := next c cs
    match cut.1 with
    | .gap text => scan (offset + byteSize text) cut.2
    | .token kind text => do
      let tokens ← scan (offset + byteSize text) cut.2
      return ⟨kind, String.ofList text⟩ :: tokens
    | .malformed text =>
      .error (.malformed ⟨offset, offset + byteSize text⟩ (String.ofList text))
    | .unterminated _ => .error (.unterminatedComment offset)
termination_by cs.length
decreasing_by all_goals exact length_next c cs

end Lexer

/-- The tokens of a source text, or its first lexical error. -/
def lex (source : String) : Except LexError (List Token) := Lexer.scan 0 source.toList

end Vee.Token
