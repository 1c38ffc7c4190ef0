import Vee.Program.Assembly
import Vee.Proofs.Code.Link
import Vee.Proofs.Text.Numeral

/-! # Programs come back from their texts

A program is read back from its words in decimal. A text is assembled from its lines of code, which are neither blank
nor comments. Those of a listing are rows of its cells, so that the words of the cells are assembled.
-/

namespace Vee

set_option autoImplicit false

open Text (Solid isBlank)

namespace Program

theorem mk_eq_iff {ws : List Word} {p : Program} : ⟨ws.toArray⟩ = p ↔ ws = p.words.toList := by
  constructor
  · rintro rfl
    rfl
  · rintro rfl
    rfl

/-! ## Words in decimal -/

theorem mapM_readWord (ws : List Word) : (ws.map fun w => w.text.toList).mapM readWord = .ok ws := by
  induction ws with
  | nil => rfl
  | cons w ws ih =>
    have hFirst : readWord w.text.toList = .ok w := by rw [readWord, Word.read?_text]
    rw [List.map_cons, List.mapM_cons, hFirst, ih]
    rfl

theorem ofText_text (p : Program) : ofText p.text = .ok p := by
  have hSolid : ∀ w ∈ p.words.toList.map fun w => w.text.toList, Solid w := by
    intro w hMem
    obtain ⟨v, -, rfl⟩ := List.mem_map.mp hMem
    exact v.solid_text
  have hText : p.text.toList = [' '].intercalate (p.words.toList.map fun w => w.text.toList) ++ ['\n'] := by
    rw [text, String.toList_append, String.toList_intercalate, List.map_map]
    rfl
  rw [ofText, hText, Text.words_append rfl, Text.words_intercalate hSolid, show Text.words [] = [] from rfl,
    List.append_nil, ofTexts, mapM_readWord]
  rfl

/-! ## Lines of assembly text -/

/-- The texts of all lines that stand for words. -/
def wordTexts (cs : List Char) : List (List Char) := (Text.lines cs).flatMap assemblyTexts

/-- Whether a line is neither blank nor a comment. -/
def isCode (line : List Char) : Bool := (Text.trim line).head?.any (· != '#')

def codeLines (cs : List Char) : List (List Char) := (Text.lines cs).filter isCode

theorem assemblyTexts_eq (line : List Char) : assemblyTexts line = if isCode line then Text.words line else [] := by
  rw [assemblyTexts, isCode, ← Text.words_trim line]
  cases Text.trim line with
  | nil => rfl
  | cons c cs => by_cases hSign : c = '#' <;> simp [hSign]

theorem wordTexts_eq (cs : List Char) : wordTexts cs = (codeLines cs).flatMap Text.words := by
  rw [wordTexts, codeLines]
  induction Text.lines cs with
  | nil => rfl
  | cons line lines ih =>
    rw [List.flatMap_cons, ih, assemblyTexts_eq, List.filter_cons]
    split
    · rw [List.flatMap_cons]
    · rfl

section

variable {line rest : List Char}

theorem isCode_dropReturn (line : List Char) : isCode (Text.dropReturn line) = isCode line := by
  rw [isCode, isCode, Text.trim_dropReturn]

theorem codeLines_append (h : '\n' ∉ line) : codeLines (line ++ '\n' :: rest) =
    if isCode line then Text.dropReturn line :: codeLines rest else codeLines rest := by
  rw [codeLines, Text.lines_append h, List.filter_cons, isCode_dropReturn]
  rfl

theorem codeLines_feed (rest : List Char) : codeLines ('\n' :: rest) = codeLines rest := by
  have hBlank : codeLines ([] ++ '\n' :: rest) = codeLines rest := codeLines_append List.not_mem_nil
  exact hBlank

theorem codeLines_comment (h : '\n' ∉ line) : codeLines ('#' :: line ++ '\n' :: rest) = codeLines rest := by
  have hHead : (Text.trim ('#' :: line)).head? = some '#' := Text.head?_trim rfl rfl
  have hSign : isCode ('#' :: line) = false := by
    rw [isCode, hHead]
    rfl
  have hLine : '\n' ∉ '#' :: line := by
    rw [List.mem_cons, not_or]
    exact ⟨by decide, h⟩
  rw [codeLines_append hLine, hSign]
  rfl

end

theorem filterMap_assembleWord? {texts : List (List Char)} {ws : List Word}
    (h : texts.map assembleWord? = ws.map some) : texts.filterMap assembleWord? = ws := by
  have hBoth : (texts.map assembleWord?).filterMap id = (ws.map some).filterMap id := by rw [h]
  rw [List.filterMap_map, List.filterMap_map] at hBoth
  exact hBoth.trans (List.filterMap_some ..)

theorem map_assembleWord?_iff {texts : List (List Char)} {ws : List Word} :
    texts.map assembleWord? = ws.map some ↔
      (∀ t ∈ texts, assembleWord? t ≠ none) ∧ texts.filterMap assembleWord? = ws := by
  constructor
  · intro h
    refine ⟨fun t hMem hNone => ?_, filterMap_assembleWord? h⟩
    have hWord : assembleWord? t ∈ ws.map some := h ▸ List.mem_map_of_mem hMem
    simp [hNone] at hWord
  · rintro ⟨hSome, rfl⟩
    have hWords : ∀ w ∈ texts.map assembleWord?, w ≠ none := by simpa using hSome
    obtain ⟨values, hValues⟩ := exists_map_some hWords
    rw [hValues, filterMap_assembleWord? hValues]

theorem words_assembleLines (number : Nat) (lines : List (List Char)) :
    (assembleLines number lines).1 = (lines.flatMap assemblyTexts).filterMap assembleWord? := by
  induction lines generalizing number with
  | nil => rfl
  | cons line lines ih =>
    rw [List.flatMap_cons, List.filterMap_append, ← ih (number + 1)]
    rfl

theorem errors_assembleLines (number : Nat) (lines : List (List Char)) :
    (assembleLines number lines).2 = [] ↔ ∀ t ∈ lines.flatMap assemblyTexts, assembleWord? t ≠ none := by
  induction lines generalizing number with
  | nil => simp [assembleLines]
  | cons line lines ih =>
    have hFirst : ((assemblyTexts line).filter fun t => (assembleWord? t).isNone) = [] ↔
        ∀ t ∈ assemblyTexts line, assembleWord? t ≠ none := by
      simp [List.filter_eq_nil_iff]
    rw [List.flatMap_cons, List.forall_mem_append, ← ih (number + 1), ← hFirst]
    simp only [assembleLines, List.append_eq_nil_iff, List.map_eq_nil_iff]

/-- A text is assembled exactly if every text that stands for a word does so. -/
theorem assemble_eq_ok_iff {text : String} {p : Program} :
    assemble text = .ok p ↔ (wordTexts text.toList).map assembleWord? = p.words.toList.map some := by
  rw [map_assembleWord?_iff, wordTexts, ← errors_assembleLines 1, ← words_assembleLines 1, assemble]
  cases assembleLines 1 (Text.lines text.toList) with
  | mk words errors =>
    cases errors with
    | nil => simp [mk_eq_iff]
    | cons e errors => simp

end Program

/-! ## Texts of cells -/

theorem Opcode.solid_mnemonic (op : Opcode) : Solid op.mnemonic.toList := by
  cases op <;> decide

theorem Opcode.ofMnemonic?_mnemonic (op : Opcode) : ofMnemonic? op.mnemonic = some op := by
  cases op <;> decide

theorem Opcode.mnemonic_head (op : Opcode) : op.mnemonic.toList.head?.any Char.isAlpha = true := by
  cases op <;> decide

theorem Opcode.ofMnemonic?_eq_none {s : String} (h : ∀ c ∈ s.toList, c.isAlpha = false) : ofMnemonic? s = none := by
  cases hFind : ofMnemonic? s with
  | none => rfl
  | some op =>
    have hMnemonic : op.mnemonic = s := by simpa using Array.find?_some hFind
    obtain ⟨c, hHead, hAlpha⟩ := (Option.any_eq_true _ _).mp op.mnemonic_head
    rw [hMnemonic] at hHead
    rw [h c (List.mem_of_mem_head? hHead)] at hAlpha
    cases hAlpha

namespace Cell

theorem solid_text (c : Cell) : Solid c.text.toList := by
  cases c with
  | op o => exact o.solid_mnemonic
  | int n => exact n.solid_text
  | symbol id =>
    rw [text, String.toList_append]
    exact Text.Solid.append (by decide) (Word.solid_repr id)

theorem sign_not_mem_text (c : Cell) : '#' ∉ c.text.toList := by
  cases c with
  | op o => cases o <;> decide
  | int n =>
    intro hMem
    have hDigit := (Word.mem_text hMem).resolve_left (by decide)
    revert hDigit
    decide
  | symbol id =>
    rw [text, String.toList_append, List.mem_append]
    rintro (hMem | hMem)
    · revert hMem
      decide
    · have hDigit := Word.isDigit_of_mem_repr hMem
      revert hDigit
      decide

/-- What a cell is written as is assembled into its word, and an unlinked symbol into none. -/
theorem assembleWord?_text (c : Cell) : Program.assembleWord? c.text.toList = c.word? ∅ := by
  rw [Program.assembleWord?, String.ofList_toList]
  cases c with
  | op o => rw [text, o.ofMnemonic?_mnemonic, word?]
  | int n =>
    rw [text, Opcode.ofMnemonic?_eq_none]
    · exact n.read?_text
    · intro c hMem
      rcases Word.mem_text hMem with rfl | hDigit
      · rfl
      · exact Word.isAlpha_of_isDigit hDigit
  | symbol id =>
    have hText : ("$" ++ id.repr).toList = '$' :: id.repr.toList := String.toList_append
    rw [text, Opcode.ofMnemonic?_eq_none, hText]
    · simp [word?, Word.read?, Word.readDigits?]
    · rw [hText, List.forall_mem_cons]
      exact ⟨rfl, fun c hMem => Word.isAlpha_of_isDigit (Word.isDigit_of_mem_repr hMem)⟩

/-! ## Rows of cells -/

/-- Cells on one line. -/
def row (cells : List Cell) : String := " ".intercalate (cells.map text)

theorem toList_row (cells : List Cell) : (row cells).toList = [' '].intercalate (cells.map fun c => c.text.toList) := by
  rw [row, String.toList_intercalate, List.map_map]
  rfl

theorem row_singleton (c : Cell) : row [c] = c.text := String.intercalate_singleton

theorem toList_row_concat {cells : List Cell} (h : cells ≠ []) (c : Cell) :
    (row (cells ++ [c])).toList = (row cells).toList ++ ' ' :: c.text.toList := by
  rw [row, List.map_append, String.intercalate_append_of_ne_nil (by simpa using h) (by simp), List.map_singleton,
    String.intercalate_singleton, ← row, String.toList_append, String.toList_append, List.append_assoc]
  rfl

theorem words_row (cells : List Cell) : Text.words (row cells).toList = cells.map fun c => c.text.toList := by
  rw [toList_row]
  apply Text.words_intercalate
  intro w hMem
  obtain ⟨c, -, rfl⟩ := List.mem_map.mp hMem
  exact c.solid_text

theorem words_rows (rows : List (List Cell)) :
    (rows.map fun r => (row r).toList).flatMap Text.words = rows.flatten.map fun c => c.text.toList := by
  rw [List.flatMap_map]
  simp only [words_row]
  rw [← List.map_flatMap, List.flatMap_id']

theorem assembleWord?_texts (cells : List Cell) :
    (cells.map fun c => c.text.toList).map Program.assembleWord? = cells.map (word? ∅) := by
  rw [List.map_map]
  exact List.map_congr_left fun c _ => c.assembleWord?_text

theorem mem_row {cells : List Cell} {d : Char} (h : d ∈ (row cells).toList) :
    d = ' ' ∨ ∃ c ∈ cells, d ∈ c.text.toList := by
  rw [toList_row] at h
  rcases Text.mem_intercalate h with hSpace | ⟨w, hMem, hChar⟩
  · exact .inl hSpace
  · obtain ⟨c, hCell, rfl⟩ := List.mem_map.mp hMem
    exact .inr ⟨c, hCell, hChar⟩

theorem blank_not_mem_row (cells : List Cell) {d : Char} (hBlank : isBlank d = true) (hSpace : d ≠ ' ') :
    d ∉ (row cells).toList := by
  intro hMem
  rcases mem_row hMem with hEq | ⟨c, -, hChar⟩
  · exact hSpace hEq
  · exact Text.not_mem_of_solid c.solid_text hBlank hChar

theorem isCode_row {cells : List Cell} (h : cells ≠ []) : Program.isCode (row cells).toList = true := by
  cases cells with
  | nil => exact absurd rfl h
  | cons c cells =>
    have hSign := c.sign_not_mem_text
    obtain ⟨hNonempty, hSolid⟩ := c.solid_text
    cases hText : c.text.toList with
    | nil => exact absurd hText hNonempty
    | cons d rest =>
      rw [hText] at hSign hSolid
      have hHead : (row (c :: cells)).toList.head? = some d := by
        rw [toList_row, List.map_cons, hText]
        cases cells <;> rfl
      rw [Program.isCode, Text.head?_trim hHead (hSolid d List.mem_cons_self), Option.any_some, bne_iff_ne]
      exact fun hEq => hSign (hEq ▸ List.mem_cons_self)

/-- A row of cells is a line of code as it stands. -/
theorem codeLines_row {cells : List Cell} (h : cells ≠ []) (rest : List Char) :
    Program.codeLines ((row cells).toList ++ '\n' :: rest) = (row cells).toList :: Program.codeLines rest := by
  have hReturn : Text.dropReturn (row cells).toList = (row cells).toList :=
    Text.dropReturn_of_not_mem (blank_not_mem_row cells rfl (by decide))
  rw [Program.codeLines_append (blank_not_mem_row cells rfl (by decide)), isCode_row h, hReturn]
  rfl

end Cell

namespace Listing

/-- The rows into which cells are written behind an open row. A row ends in front of an operation and of a section. -/
def rowsFrom (sections : List (Nat × String)) (address : Nat) (opened : List Cell) : List Cell → List (List Cell)
  | [] => [opened]
  | cell :: rest =>
    let here := sections.takeWhile fun s => s.1 == address
    let later := sections.dropWhile fun s => s.1 == address
    if cell.isOp || !here.isEmpty then opened :: rowsFrom later (address + 1) [cell] rest
    else rowsFrom later (address + 1) (opened ++ [cell]) rest

theorem flatten_rowsFrom (sections : List (Nat × String)) (address : Nat) (opened cells : List Cell) :
    (rowsFrom sections address opened cells).flatten = opened ++ cells := by
  induction cells generalizing sections address opened with
  | nil => simp [rowsFrom]
  | cons c cells ih =>
    rw [rowsFrom]
    split
    · rw [List.flatten_cons, ih, List.singleton_append]
    · rw [ih, List.append_assoc, List.singleton_append]

theorem codeLines_heads {sections : List (Nat × String)} (hNames : ∀ s ∈ sections, '\n' ∉ s.2.toList)
    (rest : List Char) :
    Program.codeLines ((sections.map fun s => "\n#func " ++ s.2 ++ "\n").flatMap String.toList ++ rest) =
      Program.codeLines rest := by
  induction sections with
  | nil => rfl
  | cons s sections ih =>
    obtain ⟨hName, hNames⟩ := List.forall_mem_cons.mp hNames
    have hLine : '\n' ∉ "func ".toList ++ s.2.toList := by
      rw [List.mem_append, not_or]
      exact ⟨by decide, hName⟩
    have hHead : ("\n#func " ++ s.2 ++ "\n").toList = '\n' :: ('#' :: ("func ".toList ++ s.2.toList) ++ ['\n']) := by
      rw [String.toList_append, String.toList_append]
      rfl
    rw [List.map_cons, List.flatMap_cons, List.append_assoc, hHead, List.cons_append, List.append_assoc,
      List.singleton_append, Program.codeLines_feed, Program.codeLines_comment hLine, ih hNames]

/-- What is written behind an open row. -/
theorem codeLines_pieces {sections : List (Nat × String)} (address : Nat) {opened cells : List Cell}
    (hNames : ∀ s ∈ sections, '\n' ∉ s.2.toList) (hOpened : opened ≠ []) :
    Program.codeLines ((Cell.row opened).toList ++ (pieces sections address true cells).flatMap String.toList) =
      (rowsFrom sections address opened cells).map fun r => (Cell.row r).toList := by
  induction cells generalizing sections address opened with
  | nil =>
    have hEnd : (pieces sections address true []).flatMap String.toList = '\n' :: [] := rfl
    rw [hEnd, Cell.codeLines_row hOpened]
    rfl
  | cons c cells ih =>
    have hHere : ∀ s ∈ sections.takeWhile fun s => s.1 == address, '\n' ∉ s.2.toList :=
      fun s hMem => hNames s (List.takeWhile_subset _ hMem)
    have hLater : ∀ s ∈ sections.dropWhile fun s => s.1 == address, '\n' ∉ s.2.toList :=
      fun s hMem => hNames s (List.dropWhile_subset _ hMem)
    have hCell := ih (address + 1) hLater (List.cons_ne_nil c [])
    rw [Cell.row_singleton] at hCell
    rw [pieces, rowsFrom]
    simp only [Bool.not_true, Bool.false_eq_true, if_false, List.flatMap_append, List.flatMap_cons]
    cases hSection : (sections.takeWhile fun s => s.1 == address).isEmpty with
    | false =>
      simp only [Bool.not_false, Bool.or_true, if_true, List.flatMap_cons]
      rw [show "\n".toList = ['\n'] from rfl, List.singleton_append, List.cons_append, Cell.codeLines_row hOpened,
        codeLines_heads hHere, hCell, List.map_cons]
    | true =>
      cases hOp : c.isOp with
      | true =>
        simp only [Bool.not_true, Bool.or_false, Bool.false_eq_true, if_false, if_true]
        rw [show ["\n"].flatMap String.toList = ['\n'] from rfl, List.singleton_append, Cell.codeLines_row hOpened,
          hCell, List.map_cons]
      | false =>
        -- an operand goes on with the row
        simp only [Bool.not_true, Bool.or_false, Bool.false_eq_true, if_false]
        rw [show [" "].flatMap String.toList = [' '] from rfl, List.singleton_append, ← List.cons_append,
          ← List.append_assoc, ← Cell.toList_row_concat hOpened, ih (address + 1) hLater (by simp)]

/-- The rows of a listing. -/
def rows (l : Listing) : List (List Cell) :=
  match l.cells with
  | [] => []
  | cell :: rest => rowsFrom (l.sections.dropWhile fun s => s.1 == 0) 1 [cell] rest

theorem codeLines_text {l : Listing} (hNames : ∀ s ∈ l.sections, '\n' ∉ s.2.toList) :
    Program.codeLines l.text.toList = l.rows.map fun r => (Cell.row r).toList := by
  rw [text, String.toList_join, rows]
  cases l.cells with
  | nil => rfl
  | cons c cells =>
    have hHere : ∀ s ∈ l.sections.takeWhile fun s => s.1 == 0, '\n' ∉ s.2.toList :=
      fun s hMem => hNames s (List.takeWhile_subset _ hMem)
    have hLater : ∀ s ∈ l.sections.dropWhile fun s => s.1 == 0, '\n' ∉ s.2.toList :=
      fun s hMem => hNames s (List.dropWhile_subset _ hMem)
    rw [pieces]
    simp only [Bool.not_false, if_true, List.flatMap_append, List.flatMap_cons]
    rw [codeLines_heads hHere, ← Cell.row_singleton, codeLines_pieces 1 hLater (by simp)]

theorem wordTexts_text {l : Listing} (hNames : ∀ s ∈ l.sections, '\n' ∉ s.2.toList) :
    Program.wordTexts l.text.toList = l.cells.map fun c => c.text.toList := by
  have hFlat : l.rows.flatten = l.cells := by
    rw [rows]
    cases l.cells with
    | nil => rfl
    | cons c cells => exact flatten_rowsFrom _ _ _ _
  rw [Program.wordTexts_eq, codeLines_text hNames, Cell.words_rows, hFlat]

theorem toProgram_eq_ok_iff {l : Listing} {p : Program} :
    l.toProgram = .ok p ↔ l.cells.map (Cell.word? ∅) = p.words.toList.map some := by
  constructor
  · intro h
    obtain ⟨ws, hWords, hProgram⟩ := Effect.exists_of_except_bind h
    cases hProgram
    exact word?_of_wordsFrom hWords ∅
  · intro h
    rw [toProgram, wordsFrom_of_word? h]
    rfl

/-- The text of a listing is assembled exactly if the listing is linked, and into its program, if a line feed is in no
name of a section. -/
theorem assemble_text_iff {l : Listing} {p : Program} (hNames : ∀ s ∈ l.sections, '\n' ∉ s.2.toList) :
    Program.assemble l.text = .ok p ↔ l.toProgram = .ok p := by
  rw [Program.assemble_eq_ok_iff, toProgram_eq_ok_iff, wordTexts_text hNames, Cell.assembleWord?_texts]

end Listing

end Vee
