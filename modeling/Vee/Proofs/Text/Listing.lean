import Vee.Proofs.Code.Sections
import Vee.Proofs.Text.Disassembly

/-! # Text of a listing

The text of a listing and its cells are assembled alike, wherever its sections start. If its cells are whole
instructions and sections start at them, as in all generated code, then the text has one instruction on each line, and
without the comments it is the disassembly of the program.
-/

namespace Vee

set_option autoImplicit false

/-- Each operation has just its operands behind it, and no section starts at an operand. -/
structure Listing.Aligned (l : Listing) : Prop where
  first : ∀ c, l.cells[0]? = some c → c.isOp = true
  operands : ∀ before o after, l.cells = before ++ .op o :: after →
    (after.takeWhile fun c => !c.isOp).length = o.operands
  sections : ∀ s ∈ l.sections, ∀ c, l.cells[s.1]? = some c → c.isOp = true

/-! ## Cells of instructions -/

namespace Instruction

def words (i : Instruction) : List Word := i.op.word :: i.operands

theorem word?_cells (i : Instruction) : i.cells.map (Cell.word? ∅) = i.words.map some := by
  rw [cells, List.map_cons, Program.word?_ints, Cell.word?, words, List.map_cons]

theorem word?_code (is : List Instruction) : (code is).map (Cell.word? ∅) = (is.flatMap words).map some := by
  rw [code, List.map_flatMap, List.map_flatMap]
  simp only [word?_cells]

theorem isOp_of_getElem? (before : List Instruction) {after : List Instruction} {c : Cell}
    (h : (code (before ++ after))[size before]? = some c) : c.isOp = true := by
  rw [code_append, size, List.getElem?_append_right (Nat.le_refl _), Nat.sub_self] at h
  cases after with
  | nil => cases h
  | cons i after =>
    cases h
    rfl

/-- The cells in front of the next operation. -/
theorem takeWhile_operands (ws : List Word) (is : List Instruction) :
    (ws.map Cell.int ++ code is).takeWhile (fun c => !c.isOp) = ws.map Cell.int := by
  have hInts : ∀ c ∈ ws.map Cell.int, (!c.isOp) = true := by
    rw [List.forall_mem_map]
    exact fun _ _ => rfl
  rw [List.takeWhile_append_of_pos hInts]
  cases is with
  | nil => exact List.append_nil _
  | cons i is => exact List.append_nil _

theorem split_operands {ws : List Word} {is : List Instruction} {o : Opcode} {before after : List Cell}
    (h : ws.map Cell.int ++ code is = before ++ .op o :: after) : ∃ more, code is = more ++ .op o :: after := by
  rcases List.append_eq_append_iff.mp h with ⟨more, _, hCode⟩ | ⟨more, hInts, hRest⟩
  · exact ⟨more, hCode⟩
  · cases more with
    | nil => exact ⟨[], hRest.symm⟩
    | cons c more =>
      obtain ⟨rfl, _⟩ := List.cons.inj hRest
      have hMem : Cell.op o ∈ ws.map Cell.int := by simp [hInts]
      simp at hMem

theorem operands_of_split {is : List Instruction} {o : Opcode} {before after : List Cell}
    (h : code is = before ++ .op o :: after) : (after.takeWhile fun c => !c.isOp).length = o.operands := by
  induction is generalizing before with
  | nil => simp at h
  | cons i is ih =>
    rw [code_cons, cells, List.cons_append] at h
    cases before with
    | nil =>
      obtain ⟨hOp, rfl⟩ := List.cons.inj h
      cases hOp
      rw [takeWhile_operands, List.length_map, i.complete]
    | cons c before =>
      obtain ⟨more, hRest⟩ := split_operands (List.cons.inj h).2
      exact ih hRest

/-- Cells in which each operation has its operands are operands and whole instructions. -/
theorem exists_operands {cells : List Cell} (hLinked : ∀ id, Cell.symbol id ∉ cells)
    (h : ∀ before o after, cells = before ++ .op o :: after →
      (after.takeWhile fun c => !c.isOp).length = o.operands) :
    ∃ (ws : List Word) (is : List Instruction), cells = ws.map Cell.int ++ code is := by
  induction cells with
  | nil => exact ⟨[], [], rfl⟩
  | cons c cells ih =>
    obtain ⟨ws, is, hCells⟩ := ih (fun id hMem => hLinked id (List.mem_cons_of_mem _ hMem)) fun before o after hSplit =>
      h (c :: before) o after (congrArg (c :: ·) hSplit)
    cases c with
    | op o =>
      have hLength := h [] o cells rfl
      rw [hCells, takeWhile_operands, List.length_map] at hLength
      exact ⟨[], ⟨o, ws, hLength⟩ :: is, congrArg (Cell.op o :: ·) hCells⟩
    | int n => exact ⟨n :: ws, is, congrArg (Cell.int n :: ·) hCells⟩
    | symbol id => exact absurd (List.mem_cons_self ..) (hLinked id)

end Instruction

theorem Listing.Aligned.exists_code {l : Listing} (h : l.Aligned) (hLinked : ∀ id, Cell.symbol id ∉ l.cells) :
    ∃ is, l.cells = Instruction.code is := by
  obtain ⟨ws, is, hCells⟩ := Instruction.exists_operands hLinked h.operands
  cases ws with
  | nil => exact ⟨is, hCells⟩
  | cons w ws =>
    have hFirst := h.first (.int w) (by rw [hCells]; rfl)
    cases hFirst

/-! ## Lines of instructions -/

namespace Listing

/-- No section starts at an operand among cells from an address on. -/
def Clear (sections : List (Nat × String)) (address : Nat) (cells : List Cell) : Prop :=
  ∀ s ∈ sections, ∀ k c, s.1 = address + k → cells[k]? = some c → c.isOp = true

section

variable {sections : List (Nat × String)} {address : Nat} {c : Cell} {opened rest : List Cell}

theorem Clear.tail (h : Clear sections address (c :: rest)) : Clear sections (address + 1) rest := by
  intro s hMem k d hAddress hGet
  refine h s hMem (k + 1) d ?_ hGet
  omega

theorem Clear.dropWhile {p : Nat × String → Bool} (h : Clear sections address rest) :
    Clear (sections.dropWhile p) address rest :=
  fun s hMem => h s (List.dropWhile_subset _ hMem)

theorem Clear.ne_of_operand (h : Clear sections address (c :: rest)) (hOperand : c.isOp = false) :
    ∀ s ∈ sections, (s.1 == address) = false := by
  intro s hMem
  rw [beq_eq_false_iff_ne]
  intro hAddress
  cases hOperand.symm.trans (h s hMem 0 c hAddress rfl)

theorem rowsFrom_operand (h : Clear sections address (c :: rest)) (hOperand : c.isOp = false) :
    rowsFrom sections address opened (c :: rest) = rowsFrom sections (address + 1) (opened ++ [c]) rest := by
  have hNone := h.ne_of_operand hOperand
  rw [rowsFrom]
  cases sections with
  | nil => simp [hOperand]
  | cons s sections => simp [hOperand, hNone s (List.mem_cons_self ..)]

theorem rowsFrom_operands (opened : List Cell) (ws : List Word) (h : Clear sections address (ws.map Cell.int ++ rest)) :
    ∃ next, rowsFrom sections address opened (ws.map Cell.int ++ rest) =
      rowsFrom sections next (opened ++ ws.map Cell.int) rest ∧ Clear sections next rest := by
  induction ws generalizing address opened with
  | nil => exact ⟨address, by simp, h⟩
  | cons w ws ih =>
    rw [List.map_cons, List.cons_append] at h ⊢
    obtain ⟨next, hRows, hNext⟩ := ih (opened ++ [.int w]) h.tail
    refine ⟨next, ?_, hNext⟩
    rw [rowsFrom_operand h rfl, hRows, List.append_assoc, List.singleton_append]

/-- Operands go on with an open row, and each instruction has a row of its own. -/
theorem rowsFrom_code (opened : List Cell) (ws : List Word) (is : List Instruction)
    (h : Clear sections address (ws.map Cell.int ++ Instruction.code is)) :
    rowsFrom sections address opened (ws.map Cell.int ++ Instruction.code is) =
      (opened ++ ws.map Cell.int) :: is.map Instruction.cells := by
  induction is generalizing sections address opened ws with
  | nil =>
    obtain ⟨next, hRows, _⟩ := rowsFrom_operands opened ws h
    rw [hRows]
    rfl
  | cons i is ih =>
    obtain ⟨next, hRows, hNext⟩ := rowsFrom_operands opened ws h
    rw [Instruction.code_cons, Instruction.cells, List.cons_append] at hRows hNext ⊢
    rw [hRows, rowsFrom]
    simp only [Cell.isOp, Bool.true_or, if_true]
    rw [ih _ _ hNext.tail.dropWhile]
    rfl

end

theorem Aligned.rows_eq {l : Listing} (h : l.Aligned) {is : List Instruction} (hCells : l.cells = Instruction.code is) :
    l.rows = is.map Instruction.cells := by
  have hClear : Clear l.sections 0 (Instruction.code is) := by
    intro s hMem k c hAddress hGet
    rw [Nat.zero_add] at hAddress
    exact h.sections s hMem c (by rwa [hCells, hAddress])
  rw [rows, hCells]
  cases is with
  | nil => rfl
  | cons i is => exact rowsFrom_code _ _ _ hClear.tail.dropWhile

end Listing

theorem Program.disassembleWords_words (is : List Instruction) :
    disassembleWords (is.flatMap Instruction.words) = is.map fun i => Cell.row i.cells := by
  induction is with
  | nil => rw [List.flatMap_nil, disassembleWords]; rfl
  | cons i is ih =>
    rw [List.flatMap_cons, Instruction.words, List.cons_append, disassembleWords]
    simp only [Opcode.ofWord?_word]
    rw [← i.complete, List.take_left, List.drop_left, ih, List.map_cons, Cell.row, Instruction.cells, List.map_cons,
      List.map_map]
    rfl

/-- The disassembly of an aligned listing is its text without blank lines and comments. -/
theorem Listing.Aligned.disassemble_eq {l : Listing} {p : Program} (h : l.Aligned)
    (hNames : ∀ s ∈ l.sections, '\n' ∉ s.2.toList) (hProgram : l.toProgram = .ok p) :
    p.disassemble = String.join ((Program.codeLines l.text.toList).map fun line => String.ofList line ++ "\n") := by
  rw [toProgram_eq_ok_iff] at hProgram
  have hLinked : ∀ id, Cell.symbol id ∉ l.cells := by
    intro id hMem
    have hNone : none ∈ p.words.toList.map some := by
      rw [← hProgram]
      exact List.mem_map.mpr ⟨_, hMem, by simp [Cell.word?]⟩
    simp at hNone
  obtain ⟨is, hCells⟩ := h.exists_code hLinked
  rw [hCells, Instruction.word?_code] at hProgram
  have hWords := (List.map_inj_right fun _ _ => Option.some.inj).mp hProgram
  rw [Program.disassemble, ← hWords, Program.disassembleWords_words, codeLines_text hNames, h.rows_eq hCells,
    List.map_map, List.map_map, List.map_map]
  simp only [Function.comp_def, String.ofList_toList]

/-! ## Generated code -/

theorem Instruction.aligned_code {is : List Instruction} {sections : List (Nat × String)}
    (h : ∀ s ∈ sections, ∃ before after, is = before ++ after ∧ s.1 = size before) :
    Listing.Aligned ⟨code is, sections⟩ := by
  constructor
  · intro c hGet
    exact isOp_of_getElem? [] hGet
  · intro before o after hSplit
    exact operands_of_split hSplit
  · intro s hMem c hGet
    obtain ⟨before, after, rfl, hStart⟩ := h s hMem
    rw [hStart] at hGet
    exact isOp_of_getElem? before hGet

def Cell.op? : Cell → Option Opcode
  | .op o => some o
  | _ => none

theorem Cell.isOp_eq (c : Cell) : c.isOp = c.op?.isSome := by
  cases c <;> rfl

theorem Cell.op?_linked (places : Std.TreeMap Nat Nat) (c : Cell) : (c.linked places).op? = c.op? := by
  cases c with
  | op o => rfl
  | int n => rfl
  | symbol id =>
    rw [Cell.linked]
    cases places[id]?.bind Word.ofNat? <;> rfl

theorem Cell.isOp_of_op? {cells others : List Cell} (h : cells.map op? = others.map op?) {a : Nat} {c : Cell}
    (hGet : cells[a]? = some c) (hOther : ∀ d, others[a]? = some d → d.isOp = true) : c.isOp = true := by
  have hMap := congrArg (fun ops => ops[a]?) h
  simp only [List.getElem?_map, hGet, Option.map_some] at hMap
  obtain ⟨d, hGetOther, hOp⟩ := Option.map_eq_some_iff.mp hMap.symm
  rw [isOp_eq, ← hOp, ← isOp_eq, hOther d hGetOther]

theorem Cell.takeWhile_op? (cells : List Cell) :
    (cells.takeWhile fun c => !c.isOp).length = ((cells.map op?).takeWhile Option.isNone).length := by
  rw [List.takeWhile_map, List.length_map]
  congr 2
  funext c
  rw [isOp_eq, Option.not_isSome]
  rfl

/-- Only the operations among the cells matter. -/
theorem Listing.Aligned.congr {l m : Listing} (h : l.Aligned) (hCells : m.cells.map Cell.op? = l.cells.map Cell.op?)
    (hSections : m.sections = l.sections) : m.Aligned := by
  constructor
  · intro c hGet
    exact Cell.isOp_of_op? hCells hGet h.first
  · intro before o after hSplit
    rw [hSplit, List.map_append, List.map_cons] at hCells
    obtain ⟨front, rest, hFront, _, hRest⟩ := List.map_eq_append_iff.mp hCells.symm
    obtain ⟨c, back, rfl, hOp, hBack⟩ := List.map_eq_cons_iff.mp hRest
    cases c with
    | op o' =>
      cases hOp
      rw [Cell.takeWhile_op?, ← hBack, ← Cell.takeWhile_op?]
      exact h.operands front o back hFront
    | int n => cases hOp
    | symbol id => cases hOp
  · intro s hMem c hGet
    exact Cell.isOp_of_op? hCells hGet (h.sections s (hSections ▸ hMem))

theorem Functions.exists_placed (fs : Functions) : ∃ places, fs.Placed places := by
  suffices h : ∃ places : Std.TreeMap Nat Nat, ∀ f ∈ fs.list, places[f.symbol]? = some 0 by
    obtain ⟨places, hPlaces⟩ := h
    exact ⟨places, fun f hMem => ⟨0, by rw [hPlaces f hMem]; rfl⟩⟩
  induction fs.list with
  | nil => exact ⟨∅, nofun⟩
  | cons f list ih =>
    obtain ⟨places, hPlaces⟩ := ih
    refine ⟨places.insert f.symbol 0, ?_⟩
    intro g hMem
    rw [Std.TreeMap.getElem?_insert]
    split
    · rfl
    · rename_i hOther
      refine hPlaces g ((List.mem_cons.mp hMem).resolve_left ?_)
      rintro rfl
      simp at hOther

/-- Generated code is whole instructions, at any addresses of the functions. -/
theorem Listing.aligned_of_ofStatements {statements : List Stmt} {l : Listing}
    (h : Listing.ofStatements statements = .ok l) : l.Aligned := by
  obtain ⟨_, d, code, ps, hDraft, _, hLinked, rfl⟩ := Listing.exists_draft h
  -- the addresses in the listing may be too large for words where no call needs them
  obtain ⟨places, hPlaced⟩ := Functions.exists_placed (Functions.declareBlock {} statements).1
  obtain ⟨main, bodies, hCells, hFollow, hStarts, hMain, hBodies⟩ := hDraft.exists_parts hPlaced
  have hDepth : ∀ p ∈ main :: bodies, Instruction.depth 0 p.instructions = some 0 := by
    intro p hMem
    rcases List.mem_cons.mp hMem with rfl | hMem
    · exact hMain.tidy.depth
    · obtain ⟨q, hPair⟩ := exists_mem_zip (by simpa using congrArg List.length hStarts) hMem
      exact (hBodies p q hPair).tidy.depth
  have hAligned : Aligned ⟨Instruction.code ((main :: bodies).flatMap Part.instructions), d.listing.sections⟩ := by
    refine Instruction.aligned_code fun s hMem => ?_
    rw [hDraft.sections] at hMem
    obtain ⟨p, hPlacement, rfl⟩ := List.mem_map.mp hMem
    have hStart : p.start ∈ bodies.map Part.start := hStarts ▸ List.mem_map_of_mem hPlacement
    obtain ⟨q, hBody, hEq⟩ := List.mem_map.mp hStart
    obtain ⟨before, after, hSplit, hAddress, _⟩ := hFollow.exists_split hDepth (List.mem_cons_of_mem _ hBody)
    refine ⟨before, q.instructions ++ after, hSplit.trans (List.append_assoc ..), ?_⟩
    rw [← hEq, hAddress, Nat.zero_add]
  refine hAligned.congr ?_ rfl
  rw [← hCells, Relocations.cells_link hDraft.records hLinked, List.map_map, List.map_map]
  exact List.map_congr_left fun c _ => (c.op?_linked _).trans (c.op?_linked _).symm

/-- Listing text is assembled as its cells are. Of aligned cells, as all generated ones are, it is the disassembly with
comments. -/
theorem Listing.text_agrees (l : Listing) (hNames : ∀ s ∈ l.sections, '\n' ∉ s.2.toList) :
    (∀ p, Program.assemble l.text = .ok p ↔ l.toProgram = .ok p) ∧
      (l.Aligned → ∀ p, l.toProgram = .ok p →
        p.disassemble = String.join ((Program.codeLines l.text.toList).map fun line => String.ofList line ++ "\n")) ∧
      ∀ statements, Listing.ofStatements statements = .ok l → l.Aligned := by
  refine ⟨?_, ?_, ?_⟩
  · intro p
    exact assemble_text_iff hNames
  · intro hAligned p hProgram
    exact hAligned.disassemble_eq hNames hProgram
  · intro statements hListing
    exact aligned_of_ofStatements hListing

/-- Two sections at one address, and one behind the last instruction. -/
theorem Listing.text_agrees_sections :
    ∃ l : Listing, l.text = "CONST 3\n\n#func f\n\n#func g\nPRINT\nHALT\n" ∧
      l.sections = [(2, "f"), (2, "g"), (4, "h")] ∧ Program.assemble l.text = .ok ⟨#[16, 3, 21, 23]⟩ ∧
      Program.disassemble ⟨#[16, 3, 21, 23]⟩ =
        String.join ((Program.codeLines l.text.toList).map fun line => String.ofList line ++ "\n") := by
  let first : List Instruction := [.const 3]
  let second : List Instruction := [.bare .print rfl, .bare .halt rfl]
  let l : Listing := ⟨Instruction.code (first ++ second), [(2, "f"), (2, "g"), (4, "h")]⟩
  obtain ⟨hAssemble, hDisassemble, _⟩ := Listing.text_agrees l (by decide)
  have hAligned : l.Aligned := by
    refine Instruction.aligned_code ?_
    simp only [List.forall_mem_cons]
    exact ⟨⟨first, second, rfl, rfl⟩, ⟨first, second, rfl, rfl⟩, ⟨first ++ second, [], rfl, rfl⟩, nofun⟩
  exact ⟨l, by decide +kernel, rfl, (hAssemble _).mpr rfl, hDisassemble hAligned _ rfl⟩

end Vee
