import Vee.Proofs.Text.Assembly

/-! # Programs come back from every text form

Each line of a disassembly is a row of cells, an operation with its operands or a word alone, and the words of the rows
are those of the program, whether or not they make sense as code. So a program is assembled from its disassembly, as it
is read from its words in decimal, with blanks between them or with commas.
-/

namespace Vee.Program

set_option autoImplicit false

open Text (isBlank)

/-! ## Disassembly -/

theorem codeLines_rows {rows : List (List Cell)} (h : ∀ r ∈ rows, r ≠ []) :
    codeLines ((rows.map fun r => Cell.row r ++ "\n").flatMap String.toList) =
      rows.map fun r => (Cell.row r).toList := by
  induction rows with
  | nil => rfl
  | cons r rows ih =>
    obtain ⟨hFirst, hRest⟩ := List.forall_mem_cons.mp h
    rw [List.map_cons, List.flatMap_cons, String.toList_append, List.append_assoc,
      show "\n".toList = ['\n'] from rfl, List.singleton_append, Cell.codeLines_row hFirst, ih hRest, List.map_cons]

theorem word?_ints (ws : List Word) : (ws.map Cell.int).map (Cell.word? ∅) = ws.map some := by
  rw [List.map_map]
  rfl

/-- The lines of a disassembly are rows of cells with the words of the program. -/
theorem exists_rows (ws : List Word) : ∃ rows : List (List Cell), (∀ r ∈ rows, r ≠ []) ∧
    disassembleWords ws = rows.map Cell.row ∧ rows.flatten.map (Cell.word? ∅) = ws.map some := by
  fun_induction disassembleWords ws with
  | case1 => exact ⟨[], nofun, rfl, rfl⟩
  | case2 word rest op hOp ih =>
    obtain ⟨rows, hNonempty, hLines, hWords⟩ := ih
    refine ⟨(.op op :: (rest.take op.operands).map .int) :: rows, ?_, ?_, ?_⟩
    · rw [List.forall_mem_cons]
      exact ⟨List.cons_ne_nil _ _, hNonempty⟩
    · rw [hLines, List.map_cons, Cell.row, List.map_cons, List.map_map]
      rfl
    · rw [List.flatten_cons, List.map_append, hWords, List.map_cons, word?_ints, List.cons_append, ← List.map_append,
        List.take_append_drop, Cell.word?, Opcode.word_of_ofWord? hOp, List.map_cons]
  | case3 word rest hOp ih =>
    obtain ⟨rows, hNonempty, hLines, hWords⟩ := ih
    refine ⟨[.int word] :: rows, ?_, ?_, ?_⟩
    · rw [List.forall_mem_cons]
      exact ⟨List.cons_ne_nil _ _, hNonempty⟩
    · rw [hLines, List.map_cons, Cell.row_singleton, Cell.text]
    · rw [List.flatten_cons, List.map_append, hWords]
      rfl

theorem assemble_disassemble (p : Program) : assemble (disassemble p) = .ok p := by
  obtain ⟨rows, hNonempty, hLines, hWords⟩ := exists_rows p.words.toList
  have hTexts : wordTexts (disassemble p).toList = rows.flatten.map fun c => c.text.toList := by
    rw [wordTexts_eq, disassemble, hLines, String.toList_join, List.map_map]
    change (codeLines ((rows.map fun r => Cell.row r ++ "\n").flatMap String.toList)).flatMap Text.words = _
    rw [codeLines_rows hNonempty, Cell.words_rows]
  rw [assemble_eq_ok_iff, hTexts, Cell.assembleWord?_texts, hWords]

/-! ## Comma lists -/

/-- A word with blanks around it. -/
structure Padded where
  before : List Char
  word : Word
  after : List Char
  before_blank : ∀ c ∈ before, isBlank c = true
  after_blank : ∀ c ∈ after, isBlank c = true

namespace Padded

def text (p : Padded) : String := String.ofList p.before ++ p.word.text ++ String.ofList p.after

theorem toList_text (p : Padded) : p.text.toList = p.before ++ p.word.text.toList ++ p.after := by
  rw [text, String.toList_append, String.toList_append, String.toList_ofList, String.toList_ofList]

theorem trim_text (p : Padded) : Text.trim p.text.toList = p.word.text.toList := by
  rw [toList_text]
  exact Text.trim_padded p.before_blank p.after_blank p.word.solid_text.trimmed p.word.solid_text.1

theorem comma_not_mem_text (p : Padded) : ',' ∉ p.text.toList := by
  rw [toList_text, List.mem_append, List.mem_append]
  rintro ((hBefore | hWord) | hAfter)
  · cases p.before_blank _ hBefore
  · rcases Word.mem_text hWord with hSign | hDigit
    · cases hSign
    · cases hDigit
  · cases p.after_blank _ hAfter

end Padded

theorem fields_texts {padded : List Padded} (h : padded ≠ []) :
    Text.fields (· == ',') (",".intercalate (padded.map Padded.text)).toList =
      padded.map fun p => p.text.toList := by
  rw [String.toList_intercalate, List.map_map]
  refine Text.fields_intercalate rfl (fun hNil => h (List.map_eq_nil_iff.mp hNil)) (List.forall_mem_map.mpr ?_)
  intro p _ c hMem
  rw [beq_eq_false_iff_ne]
  rintro rfl
  exact p.comma_not_mem_text hMem

theorem ofCommaList_texts (padded : List Padded) :
    ofCommaList (",".intercalate (padded.map Padded.text)) = .ok ⟨(padded.map Padded.word).toArray⟩ := by
  by_cases hEmpty : padded = []
  · rw [hEmpty]
    rfl
  have hTrim : (padded.map fun p => p.text.toList).map Text.trim =
      (padded.map Padded.word).map fun w => w.text.toList := by
    rw [List.map_map, List.map_map]
    exact List.map_congr_left fun p _ => p.trim_text
  have hFilter : ((padded.map Padded.word).map fun w => w.text.toList).filter (fun f => !f.isEmpty) =
      (padded.map Padded.word).map fun w => w.text.toList := by
    rw [List.filter_eq_self, List.forall_mem_map]
    intro w _
    rw [Bool.not_eq_true', List.isEmpty_eq_false_iff]
    exact w.solid_text.1
  rw [ofCommaList, fields_texts hEmpty, hTrim, hFilter, ofTexts, mapM_readWord]
  rfl

/-- A program comes back from its disassembly, from its words, and from a comma list of them. -/
theorem texts_lossless (p : Program) :
    assemble (disassemble p) = .ok p ∧ ofText p.text = .ok p ∧
      ∀ padded : List Padded, padded.map Padded.word = p.words.toList →
        ofCommaList (",".intercalate (padded.map Padded.text)) = .ok p := by
  refine ⟨assemble_disassemble p, ofText_text p, ?_⟩
  intro padded hWords
  rw [ofCommaList_texts, hWords]

/-- A number of no operation, and a call that lacks an operand. -/
theorem texts_lossless_cut :
    assemble (disassemble ⟨#[99, 16, -5, 24, 16]⟩) = .ok ⟨#[99, 16, -5, 24, 16]⟩ ∧
      ofText (text ⟨#[99, 16, -5, 24, 16]⟩) = .ok ⟨#[99, 16, -5, 24, 16]⟩ ∧
      ofCommaList " 99,16\t,-5 ,24,\n16" = .ok ⟨#[99, 16, -5, 24, 16]⟩ := by
  obtain ⟨hAssembly, hWords, hCommas⟩ := texts_lossless ⟨#[99, 16, -5, 24, 16]⟩
  obtain ⟨hSpace, hTab, hFeed⟩ : isBlank ' ' = true ∧ isBlank '\t' = true ∧ isBlank '\n' = true := ⟨rfl, rfl, rfl⟩
  have hText : ",".intercalate ([
      ⟨[' '], 99, [], by simpa, nofun⟩, ⟨[], 16, ['\t'], nofun, by simpa⟩, ⟨[], -5, [' '], nofun, by simpa⟩,
      ⟨[], 24, [], nofun, nofun⟩, ⟨['\n'], 16, [], by simpa, nofun⟩].map Padded.text) = " 99,16\t,-5 ,24,\n16" := by
    cbv
  exact ⟨hAssembly, hWords, hText ▸ hCommas _ rfl⟩

end Vee.Program
