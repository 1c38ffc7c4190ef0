import Vee.Proofs.Text.Numeral
import Vee.Token.Lexer

/-! # How tokens and gaps are written

The texts of tokens and of what may stand between them, apart from any way of reading. A token stands in front of a
rest if no longer token begins where it does. Lexing takes exactly such tokens, gaps and unfinished comments off the
front of a text.
-/

namespace Vee.Token

set_option autoImplicit false

/-- The tokens of source texts. -/
inductive Spelled : Token → Prop where
  | fixed {kind : Kind} {text : String} (h : kind.lexeme? = some text) : Spelled ⟨kind, text⟩
  | number {digits : List Char} (hNe : digits ≠ []) (h : ∀ c ∈ digits, c.isDigit = true) :
      Spelled ⟨.number, String.ofList digits⟩
  | name {c : Char} {cs : List Char} (hFirst : c.isAlpha = true) (hRest : ∀ d ∈ cs, d.isAlphanum = true)
      (hFree : ∀ kind : Kind, kind.lexeme? ≠ some (String.ofList (c :: cs))) :
      Spelled ⟨.name, String.ofList (c :: cs)⟩

/-- Blanks and comments. A line comment ends with its line, a block comment at its first star and slash. -/
inductive Gap : List Char → Prop where
  | nil : Gap []
  | blank {c : Char} {cs : List Char} (h : c ∈ [' ', '\t', '\n', '\x0c', '\r']) (hRest : Gap cs) : Gap (c :: cs)
  | line {body cs : List Char} (h : '\n' ∉ body) (hRest : Gap cs) : Gap ('#' :: body ++ '\n' :: cs)
  | block {body cs : List Char} (h : ¬ ['*', '/'] <:+: body) (hRest : Gap cs) :
      Gap ('/' :: '*' :: body ++ '*' :: '/' :: cs)

/-- A token in front of a rest: the longest one in its place, where no comment begins. Letters do not stand directly
behind a number. -/
structure Stands (t : Token) (rest : List Char) : Prop where
  spelled : t.Spelled
  longest : ∀ u : Token, u.Spelled → u.text.toList <+: t.text.toList ++ rest →
    u.text.toList.length ≤ t.text.toList.length
  opener : ¬ ['/', '*'] <+: t.text.toList ++ rest
  letter : t.kind = .number → ∀ c ∈ rest.head?, c.isAlpha = false

theorem Gap.append {front rest : List Char} (hFront : Gap front) (hRest : Gap rest) : Gap (front ++ rest) := by
  induction hFront with
  | nil => exact hRest
  | blank h _ ih => exact .blank h ih
  | line h _ ih =>
    rw [List.append_assoc]
    exact .line h ih
  | block h _ ih =>
    simp only [List.cons_append, List.append_assoc]
    exact .block h ih

/-! ## Runs of characters -/

section

variable {p : Char → Bool} {run rest : List Char}

theorem takeWhile_run (hRun : ∀ c ∈ run, p c = true) (hStop : ∀ c ∈ rest.head?, p c = false) :
    (run ++ rest).takeWhile p = run := by
  rw [List.takeWhile_append_of_pos hRun]
  cases rest with
  | nil => simp
  | cons c rest => simp [hStop c rfl]

theorem dropWhile_run (hRun : ∀ c ∈ run, p c = true) (hStop : ∀ c ∈ rest.head?, p c = false) :
    (run ++ rest).dropWhile p = rest := by
  rw [List.dropWhile_append_of_pos hRun]
  cases rest with
  | nil => simp
  | cons c rest => simp [hStop c rfl]

theorem length_le_takeWhile {cs : List Char} (hPrefix : run <+: cs) (hRun : ∀ c ∈ run, p c = true) :
    run.length ≤ (cs.takeWhile p).length := by
  obtain ⟨rest, rfl⟩ := hPrefix
  rw [List.takeWhile_append_of_pos hRun, List.length_append]
  exact Nat.le_add_right ..

end

/-! ## Classes of characters -/

namespace Lexer

/-- A character that neither begins a gap nor a number nor a word, if no comment begins with it. -/
def isMark (c : Char) : Bool := !isSpace c && c != '#' && !c.isDigit && !c.isAlpha

variable {c : Char} {cs : List Char}

theorem isSpace_iff : isSpace c = true ↔ c ∈ [' ', '\t', '\n', '\x0c', '\r'] := by
  simp [isSpace, or_assoc]

theorem isMark_iff : isMark c = true ↔
    isSpace c = false ∧ c ≠ '#' ∧ c.isDigit = false ∧ c.isAlpha = false := by
  simp [isMark, and_assoc]

/-- The characters with which gaps begin are neither letters nor digits, nor is the star. -/
theorem apart_of_isAlphanum (h : c.isAlphanum = true) : isSpace c = false ∧ c ≠ '#' ∧ c ≠ '/' ∧ c ≠ '*' := by
  have hOther : ∀ d : Char, d.isAlphanum = false → c ≠ d := by
    rintro d hNot rfl
    cases h.symm.trans hNot
  simp [isSpace, hOther ' ' rfl, hOther '\t' rfl, hOther '\n' rfl, hOther '\x0c' rfl, hOther '\r' rfl, hOther '#' rfl,
    hOther '/' rfl, hOther '*' rfl]

theorem next_digit (h : c.isDigit = true) : next c cs = number (c :: cs) := by
  obtain ⟨hSpace, hHash, hSlash, -⟩ := apart_of_isAlphanum (c := c) (by rw [Char.isAlphanum, h, Bool.or_true])
  simp [next, hSpace, hHash, hSlash, h]

theorem next_letter (h : c.isAlpha = true) : next c cs = word (c :: cs) := by
  obtain ⟨hSpace, hHash, hSlash, -⟩ := apart_of_isAlphanum (c := c) (by rw [Char.isAlphanum, h, Bool.true_or])
  have hDigit : c.isDigit = false := by
    rw [Bool.eq_false_iff]
    intro hDigit
    cases h.symm.trans (Word.isAlpha_of_isDigit hDigit)
  simp [next, hSpace, hHash, hSlash, hDigit, h]

theorem next_mark (h : isMark c = true) (hOpener : ¬ ['/', '*'] <+: c :: cs) : next c cs = mark c cs := by
  obtain ⟨hSpace, hHash, hDigit, hAlpha⟩ := isMark_iff.mp h
  have hComment : ¬ (c = '/' ∧ cs.head? = some '*') := by
    rintro ⟨rfl, hStar⟩
    obtain ⟨rest, rfl⟩ := List.head?_eq_some_iff.mp hStar
    exact hOpener ⟨rest, rfl⟩
  simp [next, hSpace, hHash, hDigit, hAlpha, hComment]

/-! ## Pieces at the front of a text -/

theorem number_append {digits rest : List Char} (hDigits : ∀ d ∈ digits, d.isDigit = true)
    (hStop : ∀ d ∈ rest.head?, d.isDigit = false) (hLetter : ∀ d ∈ rest.head?, d.isAlpha = false) :
    number (digits ++ rest) = (.token .number digits, rest) := by
  have hEnd : rest.head?.any Char.isAlpha = false := by
    rw [Option.any_eq_false]
    simpa using hLetter
  rw [number, takeWhile_run hDigits hStop, dropWhile_run hDigits hStop, hEnd]
  rfl

theorem word_append {run rest : List Char} (hRun : ∀ d ∈ run, isLetterOrDigit d = true)
    (hStop : ∀ d ∈ rest.head?, isLetterOrDigit d = false) :
    word (run ++ rest) = (.token ((Kind.ofLexeme? (String.ofList run)).getD .name) run, rest) := by
  rw [word, takeWhile_run hRun hStop, dropWhile_run hRun hStop]

theorem mark_lexeme {rest : List Char} {kind : Kind} (hShort : cs.length ≤ 1)
    (hKind : Kind.ofLexeme? (String.ofList (c :: cs)) = some kind)
    (hStop : ∀ d ∈ rest.head?, Kind.ofLexeme? (String.ofList (c :: cs ++ [d])) = none) :
    mark c (cs ++ rest) = (.token kind (c :: cs), rest) := by
  match cs, hShort with
  | [], _ =>
    have hMark : shortMark c = .token kind [c] := by
      rw [shortMark, hKind]
    cases rest with
    | nil => rw [List.append_nil, mark, hMark]
    | cons d rest =>
      have hPair : Kind.ofLexeme? (String.ofList [c, d]) = none := hStop d rfl
      rw [List.nil_append, mark, hPair, hMark]
  | [d], _ => rw [List.cons_append, List.nil_append, mark, hKind]

end Lexer

/-! ## Tokens by their first character -/

open Lexer (isSpace isMark isLetterOrDigit)

theorem ofLexeme?_of_lexeme? {kind : Kind} {text : String} (h : kind.lexeme? = some text) :
    Kind.ofLexeme? text = some kind := by
  cases kind <;> cases h <;> decide

theorem lexeme?_of_ofLexeme? {kind : Kind} {text : String} (h : Kind.ofLexeme? text = some kind) :
    kind.lexeme? = some text := by
  simpa using List.find?_some h

/-- Words, and marks of one or two characters. -/
def isLexeme : List Char → Bool
  | [] => false
  | c :: cs => c.isAlpha && cs.all Char.isAlphanum ||
      isMark c && cs.length ≤ 1 && cs.all fun d => d == '=' || d == '|' || d == '&'

/-- Lexemes are words, or marks of one or two characters. -/
theorem lexeme_cases {kind : Kind} {text : String} (h : kind.lexeme? = some text) :
    ∃ c cs, text.toList = c :: cs ∧
      (c.isAlpha = true ∧ (∀ d ∈ cs, d.isAlphanum = true) ∨
        isMark c = true ∧ cs.length ≤ 1 ∧ ∀ d ∈ cs, d ∈ ['=', '|', '&']) := by
  have hTable : isLexeme text.toList = true := by
    cases kind <;> cases h <;> decide
  cases hText : text.toList with
  | nil =>
    rw [hText] at hTable
    cases hTable
  | cons c cs =>
    rw [hText] at hTable
    exact ⟨c, cs, rfl, by simpa [isLexeme, and_assoc, or_assoc] using hTable⟩

/-- Numbers begin with digits, words with letters, marks with neither. -/
theorem Spelled.cases {t : Token} (h : t.Spelled) :
    ∃ c cs, t.text.toList = c :: cs ∧
      (t.kind = .number ∧ (∀ d ∈ c :: cs, d.isDigit = true) ∨
        c.isAlpha = true ∧ (∀ d ∈ cs, d.isAlphanum = true) ∧ t.kind = (Kind.ofLexeme? t.text).getD .name ∨
        isMark c = true ∧ cs.length ≤ 1 ∧ (∀ d ∈ cs, d ∈ ['=', '|', '&']) ∧ Kind.ofLexeme? t.text = some t.kind) := by
  cases h with
  | @fixed kind text h =>
    have hKind := ofLexeme?_of_lexeme? h
    obtain ⟨c, cs, hText, ⟨hFirst, hRest⟩ | ⟨hFirst, hShort, hRest⟩⟩ := lexeme_cases h
    · refine ⟨c, cs, hText, .inr (.inl ⟨hFirst, hRest, ?_⟩)⟩
      rw [hKind]
      rfl
    · exact ⟨c, cs, hText, .inr (.inr ⟨hFirst, hShort, hRest, hKind⟩)⟩
  | @number digits hNe h =>
    obtain ⟨c, cs, rfl⟩ := List.exists_cons_of_ne_nil hNe
    exact ⟨c, cs, String.toList_ofList, .inl ⟨rfl, h⟩⟩
  | @name c cs hFirst hRest hFree =>
    refine ⟨c, cs, String.toList_ofList, .inr (.inl ⟨hFirst, hRest, ?_⟩)⟩
    cases hKind : Kind.ofLexeme? (String.ofList (c :: cs)) with
    | none => rfl
    | some kind => exact absurd (lexeme?_of_ofLexeme? hKind) (hFree kind)

theorem isAlphanum_of_word {c : Char} {cs : List Char} (hFirst : c.isAlpha = true)
    (hRest : ∀ d ∈ cs, d.isAlphanum = true) : ∀ d ∈ c :: cs, d.isAlphanum = true := by
  rw [List.forall_mem_cons]
  constructor
  · rw [Char.isAlphanum, hFirst, Bool.true_or]
  · exact hRest

theorem spelled_digits {c : Char} {cs : List Char} (h : ∀ d ∈ c :: cs, d.isDigit = true) :
    Spelled ⟨.number, String.ofList (c :: cs)⟩ := .number (List.cons_ne_nil _ _) h

theorem spelled_word {c : Char} {cs : List Char} (hFirst : c.isAlpha = true) (hRest : ∀ d ∈ cs, d.isAlphanum = true) :
    Spelled ⟨(Kind.ofLexeme? (String.ofList (c :: cs))).getD .name, String.ofList (c :: cs)⟩ := by
  cases hKind : Kind.ofLexeme? (String.ofList (c :: cs)) with
  | some kind => exact .fixed (lexeme?_of_ofLexeme? hKind)
  | none =>
    apply Spelled.name hFirst hRest
    intro kind hLexeme
    cases hKind.symm.trans (ofLexeme?_of_lexeme? hLexeme)

/-! ## Tokens at the front of a text -/

namespace Stands

variable {t : Token} {rest : List Char}

/-- A token does not go on with the character behind it. -/
theorem not_spelled_concat (h : Stands t rest) {c : Char} (hNext : c ∈ rest.head?) (kind : Kind) :
    ¬ Spelled ⟨kind, String.ofList (t.text.toList ++ [c])⟩ := by
  intro hLonger
  obtain ⟨tail, rfl⟩ := List.head?_eq_some_iff.mp hNext
  have hLe := h.longest _ hLonger (by simp)
  rw [String.toList_ofList, List.length_append] at hLe
  exact Nat.not_succ_le_self _ hLe

theorem next_eq (h : Stands t rest) {c : Char} {cs : List Char} (hText : t.text.toList = c :: cs) :
    Lexer.next c (cs ++ rest) = (.token t.kind (c :: cs), rest) := by
  have hString : t.text = String.ofList (c :: cs) := by
    rw [← hText, String.ofList_toList]
  have hEnd := fun {d : Char} (hNext : d ∈ rest.head?) kind => hText ▸ h.not_spelled_concat hNext kind
  obtain ⟨c', cs', hSame, hCases⟩ := h.spelled.cases
  cases hText.symm.trans hSame
  rcases hCases with ⟨hKind, hDigits⟩ | ⟨hFirst, hRest, hKind⟩ | ⟨hFirst, hShort, -, hKind⟩
  · rw [Lexer.next_digit (hDigits c List.mem_cons_self), ← List.cons_append, hKind]
    apply Lexer.number_append hDigits _ (h.letter hKind)
    intro d hNext
    rw [Bool.eq_false_iff]
    intro hDigit
    apply hEnd hNext .number
    apply spelled_digits
    simpa [or_imp, forall_and, hDigit] using hDigits
  · rw [Lexer.next_letter hFirst, ← List.cons_append, hKind, hString]
    apply Lexer.word_append (isAlphanum_of_word hFirst hRest)
    intro d hNext
    rw [Bool.eq_false_iff]
    intro hMore
    apply hEnd hNext
    apply spelled_word hFirst
    simpa [or_imp, forall_and] using ⟨hRest, hMore⟩
  · have hOpener := h.opener
    rw [hText, List.cons_append] at hOpener
    rw [Lexer.next_mark hFirst hOpener]
    apply Lexer.mark_lexeme hShort (hString ▸ hKind)
    intro d hNext
    rw [Option.eq_none_iff_forall_ne_some]
    intro kind hPair
    exact hEnd hNext kind (.fixed (lexeme?_of_ofLexeme? hPair))

/-- A token stands in front of less if it stands in front of more. -/
theorem of_append {more : List Char} (h : Stands t (rest ++ more)) : Stands t rest := by
  have hLess : t.text.toList ++ rest <+: t.text.toList ++ (rest ++ more) :=
    ⟨more, List.append_assoc ..⟩
  constructor
  · exact h.spelled
  · intro u hSpelled hPrefix
    exact h.longest u hSpelled (hPrefix.trans hLess)
  · intro hOpener
    exact h.opener (hOpener.trans hLess)
  · intro hKind c hNext
    obtain ⟨tail, rfl⟩ := List.head?_eq_some_iff.mp hNext
    exact h.letter hKind c rfl

end Stands

/-- What the first character of a text says about a token at its front. -/
theorem Spelled.of_prefix {u : Token} (h : u.Spelled) {c : Char} {cs : List Char}
    (hPrefix : u.text.toList <+: c :: cs) :
    (c.isDigit = true → ∀ d ∈ u.text.toList, d.isDigit = true) ∧
      (c.isAlpha = true → ∀ d ∈ u.text.toList, isLetterOrDigit d = true) ∧
      (isMark c = true →
        ∃ tail, u.text.toList = c :: tail ∧ tail.length ≤ 1 ∧ Kind.ofLexeme? u.text = some u.kind) := by
  obtain ⟨c', tail, hText, hCases⟩ := h.cases
  obtain ⟨rfl, -⟩ := List.cons_prefix_cons.mp (hText ▸ hPrefix)
  have hNot : c'.isDigit = true → c'.isAlpha = true → False := by
    intro hDigit hAlpha
    cases hAlpha.symm.trans (Word.isAlpha_of_isDigit hDigit)
  rw [hText, Lexer.isMark_iff]
  rcases hCases with ⟨-, hDigits⟩ | ⟨hFirst, hRest, -⟩ | ⟨hFirst, hShort, -, hKind⟩
  · have hFirst := hDigits c' List.mem_cons_self
    exact ⟨fun _ => hDigits, fun hAlpha => (hNot hFirst hAlpha).elim, by simp [hFirst]⟩
  · exact ⟨fun hDigit => (hNot hDigit hFirst).elim, fun _ => isAlphanum_of_word hFirst hRest, by simp [hFirst]⟩
  · obtain ⟨-, -, hDigit, hAlpha⟩ := Lexer.isMark_iff.mp hFirst
    exact ⟨by simp [hDigit], by simp [hAlpha], fun _ => ⟨tail, rfl, hShort, hKind⟩⟩

/-! ## Gaps at the front of a text -/

namespace Lexer

variable {c : Char} {body cs text rest : List Char}

theorem cutLine_append_newline (h : '\n' ∉ body) (cs : List Char) :
    cutLine (body ++ '\n' :: cs) = (body ++ ['\n'], cs) := by
  induction body with
  | nil => rfl
  | cons c body ih =>
    rw [List.mem_cons, not_or] at h
    rw [List.cons_append, cutLine, if_neg (Ne.symm h.1), ih h.2]
    rfl

theorem cutLine_of_notMem (h : '\n' ∉ body) : cutLine body = (body, []) := by
  induction body with
  | nil => rfl
  | cons c body ih =>
    rw [List.mem_cons, not_or] at h
    rw [cutLine, if_neg (Ne.symm h.1), ih h.2]

theorem cutComment_cons (h : ¬ ['*', '/'] <+: c :: cs) :
    cutComment (c :: cs) = (cutComment cs).map fun (body, rest) => (c :: body, rest) := by
  rw [cutComment]
  rintro tail rfl rfl
  exact h ⟨tail, rfl⟩

theorem cutComment_append_end (h : ¬ ['*', '/'] <:+: body) (cs : List Char) :
    cutComment (body ++ '*' :: '/' :: cs) = some (body ++ ['*', '/'], cs) := by
  induction body with
  | nil => rfl
  | cons c body ih =>
    have hFirst : ¬ ['*', '/'] <+: c :: (body ++ '*' :: '/' :: cs) := by
      intro hEnd
      cases body with
      | nil => simp at hEnd
      | cons d body =>
        rw [List.cons_append, List.cons_prefix_cons, List.cons_prefix_cons] at hEnd
        apply h
        rw [hEnd.1, hEnd.2.1]
        exact ⟨[], body, rfl⟩
    have hRest : ¬ ['*', '/'] <:+: body := fun hEnd => h (hEnd.trans (List.infix_cons_iff.mpr (.inr List.infix_rfl)))
    rw [List.cons_append, cutComment_cons hFirst, ih hRest]
    rfl

theorem cutComment_eq_some (h : cutComment cs = some (text, rest)) :
    ∃ body, ¬ ['*', '/'] <:+: body ∧ text = body ++ ['*', '/'] := by
  fun_induction cutComment cs generalizing text with
  | case1 => cases h
  | case2 cs =>
    cases h
    exact ⟨[], by simp, rfl⟩
  | case3 c cs hFirst ih =>
    obtain ⟨⟨text, rest⟩, hCut, ⟨⟩⟩ := Option.map_eq_some_iff.mp h
    obtain ⟨body, hBody, rfl⟩ := ih hCut
    refine ⟨c :: body, ?_, rfl⟩
    rw [List.infix_cons_iff, not_or]
    refine ⟨?_, hBody⟩
    -- The body goes on as the text does, and the text does not begin with a star and a slash.
    intro hEnd
    have hText := hEnd.trans (List.cons_prefix_cons.mpr ⟨rfl, List.prefix_append body (['*', '/'] ++ rest)⟩)
    rw [← List.append_assoc, cutComment_append cs hCut] at hText
    obtain ⟨tail, hTail⟩ := hText
    cases hTail
    exact hFirst tail rfl rfl

theorem next_space (h : c ∈ [' ', '\t', '\n', '\x0c', '\r']) : next c cs = (.gap [c], cs) := by
  rw [next, if_pos (isSpace_iff.mpr h)]

theorem next_hash : next '#' cs = (.gap ('#' :: (cutLine cs).1), (cutLine cs).2) := rfl

theorem next_line (h : '\n' ∉ body) : next '#' (body ++ '\n' :: cs) = (.gap ('#' :: body ++ ['\n']), cs) := by
  rw [next_hash, cutLine_append_newline h, List.cons_append]

theorem next_lastLine (h : '\n' ∉ body) : next '#' body = (.gap ('#' :: body), []) := by
  rw [next_hash, cutLine_of_notMem h]

theorem next_block (h : ¬ ['*', '/'] <:+: body) :
    next '/' ('*' :: body ++ '*' :: '/' :: cs) = (.gap ('/' :: '*' :: body ++ ['*', '/']), cs) := by
  have hCut := cutComment_append_end h cs
  simp [next, isSpace, hCut]

end Lexer

/-! ## What is at the front of a text -/

namespace Lexer

/-- What a piece of a text is in front of the rest of the text. -/
inductive Piece.Fits : Piece → List Char → Prop where
  | gap {text rest : List Char} (h : Gap text) : Fits (.gap text) rest
  | lastLine {body : List Char} (h : '\n' ∉ body) : Fits (.gap ('#' :: body)) []
  | token {kind : Kind} {text rest : List Char} (h : Stands ⟨kind, String.ofList text⟩ rest) :
      Fits (.token kind text) rest
  | malformed {text rest : List Char} : Fits (.malformed text) rest
  | unterminated {body : List Char} : Fits (.unterminated ('/' :: '*' :: body)) []

variable {c : Char} {cs text rest : List Char} {kind : Kind}

/-- The longest token of a text is found among those of the class that its first character begins. -/
theorem stands_of_longest (hSpelled : Spelled ⟨kind, String.ofList text⟩) (hWhole : text ++ rest = c :: cs)
    (hLongest : ∀ u : Token, u.Spelled → u.text.toList <+: c :: cs → u.text.toList.length ≤ text.length)
    (hOpener : ¬ ['/', '*'] <+: c :: cs) (hLetter : kind = .number → ∀ d ∈ rest.head?, d.isAlpha = false) :
    Stands ⟨kind, String.ofList text⟩ rest := by
  constructor
  · exact hSpelled
  · simpa only [String.toList_ofList, hWhole] using hLongest
  · simpa only [String.toList_ofList, hWhole] using hOpener
  · exact hLetter

theorem number_fits (hDigit : c.isDigit = true) (hOpener : ¬ ['/', '*'] <+: c :: cs) :
    (number (c :: cs)).1.Fits (number (c :: cs)).2 := by
  rw [number]
  split
  · exact .malformed
  · rename_i hLetter
    constructor
    apply stands_of_longest _ List.takeWhile_append_dropWhile _ hOpener
    · intro _ d hNext
      rw [hNext, Option.any_some, Bool.not_eq_true] at hLetter
      exact hLetter
    · apply Spelled.number
      · simp [hDigit]
      · exact fun d hMem => List.all_eq_true.mp List.all_takeWhile d hMem
    · intro u hSpelled hPrefix
      exact length_le_takeWhile hPrefix ((hSpelled.of_prefix hPrefix).1 hDigit)

theorem word_fits (hAlpha : c.isAlpha = true) (hOpener : ¬ ['/', '*'] <+: c :: cs) :
    (word (c :: cs)).1.Fits (word (c :: cs)).2 := by
  have hFirst : isLetterOrDigit c = true := by
    rw [isLetterOrDigit, hAlpha, Bool.true_or]
  constructor
  apply stands_of_longest _ List.takeWhile_append_dropWhile _ hOpener
  · intro hKind
    rcases Option.getD_eq_iff.mp hKind with hLexeme | ⟨-, hName⟩
    · cases lexeme?_of_ofLexeme? hLexeme
    · cases hName
  · rw [List.takeWhile_cons_of_pos hFirst]
    apply spelled_word hAlpha
    exact fun d hMem => List.all_eq_true.mp List.all_takeWhile d hMem
  · intro u hSpelled hPrefix
    exact length_le_takeWhile hPrefix ((hSpelled.of_prefix hPrefix).2.1 hAlpha)

theorem stands_of_ofLexeme? (hMark : isMark c = true) (hOpener : ¬ ['/', '*'] <+: c :: cs)
    (hWhole : text ++ rest = c :: cs) (hKind : Kind.ofLexeme? (String.ofList text) = some kind)
    (hLonger : ∀ u : Token, u.text.toList.length ≤ 2 → Kind.ofLexeme? u.text = some u.kind →
      u.text.toList <+: c :: cs → u.text.toList.length ≤ text.length) :
    Stands ⟨kind, String.ofList text⟩ rest := by
  apply stands_of_longest (.fixed (lexeme?_of_ofLexeme? hKind)) hWhole _ hOpener
  · rintro rfl
    cases lexeme?_of_ofLexeme? hKind
  · intro u hSpelled hPrefix
    obtain ⟨tail, hTail, hShort, hLexeme⟩ := (hSpelled.of_prefix hPrefix).2.2 hMark
    apply hLonger u _ hLexeme hPrefix
    rw [hTail]
    exact Nat.succ_le_succ hShort

/-- An operator of one character stands where no operator of two characters does. -/
theorem shortMark_fits (hMark : isMark c = true) (hOpener : ¬ ['/', '*'] <+: c :: cs)
    (hPair : ∀ d ∈ cs.head?, Kind.ofLexeme? (String.ofList [c, d]) = none) : (shortMark c).Fits cs := by
  rw [shortMark]
  split
  · rename_i hKind
    constructor
    apply stands_of_ofLexeme? hMark hOpener rfl hKind
    intro u hShort hLexeme hPrefix
    rcases hText : u.text.toList with _ | ⟨a, _ | ⟨d, _ | ⟨e, rest⟩⟩⟩
    · exact Nat.zero_le _
    · exact Nat.le_refl _
    · rw [hText, List.cons_prefix_cons, List.singleton_prefix_iff_head?_eq_some] at hPrefix
      rw [← String.ofList_toList (s := u.text), hText, hPrefix.1, hPair d hPrefix.2] at hLexeme
      cases hLexeme
    · rw [hText] at hShort
      simp at hShort
  · exact .malformed

theorem mark_fits (hMark : isMark c = true) (hOpener : ¬ ['/', '*'] <+: c :: cs) :
    (mark c cs).1.Fits (mark c cs).2 := by
  cases cs with
  | nil => exact shortMark_fits hMark hOpener nofun
  | cons d cs =>
    rw [mark]
    split
    · rename_i hKind
      constructor
      apply stands_of_ofLexeme? hMark hOpener rfl hKind
      exact fun u hShort _ _ => hShort
    · rename_i hKind
      apply shortMark_fits hMark hOpener
      rintro d' ⟨⟩
      exact hKind

theorem next_fits (c : Char) (cs : List Char) : (next c cs).1.Fits (next c cs).2 := by
  rw [next]
  split
  · rename_i hSpace
    exact .gap (.blank (isSpace_iff.mp hSpace) .nil)
  rename_i hSpace
  split
  · rename_i hHash
    subst hHash
    by_cases hLine : '\n' ∈ cs
    · obtain ⟨body, rest, rfl, hBody⟩ := List.eq_append_cons_of_mem hLine
      rw [cutLine_append_newline hBody]
      exact .gap (.line hBody .nil)
    · rw [cutLine_of_notMem hLine]
      exact .lastLine hLine
  rename_i hHash
  split
  · rename_i hOpen
    obtain ⟨tail, rfl, rfl⟩ : ∃ tail, c = '/' ∧ cs = '*' :: tail := by
      cases cs <;> simp_all
    split
    · rename_i hCut
      obtain ⟨body, hBody, rfl⟩ := cutComment_eq_some hCut
      exact .gap (.block hBody .nil)
    · exact .unterminated
  rename_i hComment
  have hOpener : ¬ ['/', '*'] <+: c :: cs := by
    rintro ⟨tail, hOpen⟩
    cases hOpen
    exact hComment rfl
  split
  · rename_i hDigit
    exact number_fits hDigit hOpener
  rename_i hDigit
  split
  · rename_i hAlpha
    exact word_fits hAlpha hOpener
  · rename_i hAlpha
    apply mark_fits _ hOpener
    simp [isMark_iff, hSpace, hHash, hDigit, hAlpha]

end Lexer

/-! ## Tokens in front of gaps -/

theorem Gap.head {gap : List Char} (h : Gap gap) {c : Char} (hFirst : c ∈ gap.head?) :
    isSpace c = true ∨ c = '#' ∨ c = '/' := by
  cases h with
  | nil => cases hFirst
  | blank h =>
    cases hFirst
    exact .inl (Lexer.isSpace_iff.mpr h)
  | line =>
    cases hFirst
    exact .inr (.inl rfl)
  | block =>
    cases hFirst
    exact .inr (.inr rfl)

/-- Behind its first character a token holds none that begins a gap, and no star. -/
theorem Spelled.tail {t : Token} (h : t.Spelled) {d : Char} (hMem : d ∈ t.text.toList.tail) :
    isSpace d = false ∧ d ≠ '#' ∧ d ≠ '/' ∧ d ≠ '*' := by
  obtain ⟨c, cs, hText, hCases⟩ := h.cases
  rw [hText, List.tail_cons] at hMem
  rcases hCases with ⟨-, hDigits⟩ | ⟨-, hRest, -⟩ | ⟨-, -, hRest, -⟩
  · apply Lexer.apart_of_isAlphanum
    rw [Char.isAlphanum, hDigits d (List.mem_cons_of_mem c hMem), Bool.or_true]
  · exact Lexer.apart_of_isAlphanum (hRest d hMem)
  · have hMark := hRest d hMem
    simp only [List.mem_cons, List.not_mem_nil, or_false] at hMark
    rcases hMark with rfl | rfl | rfl <;> decide

/-- Every token stands in front of a gap. -/
theorem stands_of_gap {t : Token} {rest : List Char} (h : t.Spelled)
    (hRest : ∀ c ∈ rest.head?, isSpace c = true ∨ c = '#' ∨ c = '/') : Stands t rest := by
  have hNot : ∀ d ∈ rest.head?, ¬ (isSpace d = false ∧ d ≠ '#' ∧ d ≠ '/' ∧ d ≠ '*') := by
    rintro d hNext ⟨hSpace, hHash, hSlash, -⟩
    rcases hRest d hNext with hGap | hGap | hGap
    · cases hSpace.symm.trans hGap
    · exact hHash hGap
    · exact hSlash hGap
  obtain ⟨c, cs, hText, -⟩ := h.cases
  constructor
  · exact h
  · intro u hSpelled hPrefix
    rw [← Nat.not_lt]
    intro hLonger
    -- A longer token would go on with the first character of the rest.
    obtain ⟨more, hMore⟩ := List.prefix_of_prefix_length_le (List.prefix_append _ rest) hPrefix (Nat.le_of_lt hLonger)
    cases more with
    | nil => simp [← hMore] at hLonger
    | cons d more =>
      rw [← hMore, List.prefix_append_right_inj] at hPrefix
      obtain ⟨tail, rfl⟩ := hPrefix
      apply hNot d rfl (hSpelled.tail _)
      rw [← hMore, hText]
      simp
  · rintro ⟨tail, hOpen⟩
    rw [hText] at hOpen
    cases cs with
    | nil =>
      cases rest with
      | nil => cases hOpen
      | cons d rest =>
        cases hOpen
        rcases hRest '*' rfl with hGap | hGap | hGap <;> cases hGap
    | cons d cs =>
      cases hOpen
      exact (h.tail (d := '*') (by simp [hText])).2.2.2 rfl
  · intro _ c hNext
    rw [Bool.eq_false_iff]
    intro hAlpha
    apply hNot c hNext (Lexer.apart_of_isAlphanum _)
    rw [Char.isAlphanum, hAlpha, Bool.true_or]

end Vee.Token
