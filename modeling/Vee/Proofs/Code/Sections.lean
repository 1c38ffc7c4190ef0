import Vee.Proofs.Code.Balance
import Vee.Proofs.Code.Layout
import Vee.Proofs.Machine.Frame
import Vee.Stmt.Scoped

/-! # Sections of a listing

A linked listing is the main program, with a halt at its end, and behind it one section for each function in the
order of declaration, with a return at its end. All of it splits into instructions. Jumps stay inside their section,
and calls lead to the first instruction of one.
-/

namespace Vee

set_option autoImplicit false

/-! ## Functions in the order of declaration -/

def Function.declaration (f : Function) : Declaration := ⟨f.name, f.params, f.body⟩

mutual

theorem Functions.declarations_declareStmt {fs : Functions} {s : Stmt} (h : (fs.declareStmt s).2 = []) :
    (fs.declareStmt s).1.list.map Function.declaration = fs.list.map Function.declaration ++ s.declarations := by
  cases s with
  | function span name params body =>
    rw [Functions.declareStmt] at h ⊢
    rw [Functions.declare] at h ⊢
    cases hFind : fs.find? name with
    | some f =>
      rw [hFind] at h
      cases h
    | none =>
      simp only [hFind] at h ⊢
      rw [Functions.declarations_declareBlock h, List.map_append, List.append_assoc]
      rfl
  | branch span c yes no =>
    rw [Functions.declareStmt] at h ⊢
    obtain ⟨hYes, hNo⟩ := List.append_eq_nil_iff.mp h
    rw [Functions.declarations_declareBlock hNo, Functions.declarations_declareBlock hYes, List.append_assoc]
    rfl
  | whileLoop span c body => exact Functions.declarations_declareBlock h
  | forLoop span init c step body => exact Functions.declarations_declareBlock h
  | assign span name e => exact (List.append_nil _).symm
  | expr span e => exact (List.append_nil _).symm
  | print span e => exact (List.append_nil _).symm
  | ret span value => exact (List.append_nil _).symm

theorem Functions.declarations_declareBlock {fs : Functions} {body : List Stmt} (h : (fs.declareBlock body).2 = []) :
    (fs.declareBlock body).1.list.map Function.declaration =
      fs.list.map Function.declaration ++ Stmt.blockDeclarations body := by
  cases body with
  | nil => exact (List.append_nil _).symm
  | cons s rest =>
    rw [Functions.declareBlock] at h ⊢
    obtain ⟨hFirst, hRest⟩ := List.append_eq_nil_iff.mp h
    rw [Functions.declarations_declareBlock hRest, Functions.declarations_declareStmt hFirst, List.append_assoc]
    rfl

end

/-! ## Parts -/

/-- Instructions that stand at an address. -/
structure Part where
  start : Nat
  instructions : List Instruction

namespace Part

open Instruction

/-- Parts stand one behind another from an address on. -/
def Follow : Nat → List Part → Prop
  | _, [] => True
  | a, p :: rest => p.start = a ∧ Follow (a + size p.instructions) rest

/-- Each jump goes to the constant in front of it, where an instruction of the part starts. -/
def JumpsInside (p : Part) : Prop :=
  ∀ before i after, p.instructions = before ++ i :: after → i.isJump = true →
    ∃ front w, before = front ++ [.const w] ∧
      ∃ first j rest, p.instructions = first ++ j :: rest ∧ w.toNat? = some (p.start + size first)

/-- No word is left on the stack where an instruction of the part starts. -/
def LevelAt (p : Part) (t : Nat) : Prop :=
  ∃ before i after, p.instructions = before ++ i :: after ∧ Instruction.depth 0 before = some 0 ∧
    t = p.start + size before

/-- The part has the code of a block, with an instruction at its end that goes no further. `call` gives the
instruction that calls a function. -/
structure Sound (call : String → Option Instruction) (body : List Stmt) (last : Instruction) (p : Part) : Prop where
  tidy : Tidy p.LevelAt p.instructions
  ends : p.instructions.getLast? = some last
  starts : ∀ t ∈ Stmt.blockStarts p.start body, Rests p.start p.instructions t
  calls : (p.instructions.filter isCall).map some = (Stmt.blockCallees body).map call

theorem levelAt_of_rests {a t : Nat} {is last : List Instruction} (h : Rests a is t) (hLast : last ≠ []) :
    LevelAt ⟨a, is ++ last⟩ t := by
  obtain ⟨before, after, rfl, hDepth, rfl⟩ := h
  cases hRest : after ++ last with
  | nil => exact absurd (List.append_eq_nil_iff.mp hRest).2 hLast
  | cons i rest =>
    refine ⟨before, i, rest, ?_, hDepth, rfl⟩
    rw [List.append_assoc, hRest]

end Part

open Instruction

section

variable {fs : Functions} {places : Std.TreeMap Nat Nat} {v : Variables} {a : Nat} {body : List Stmt}
    {code lastCode : List Cell} {names more : List String} {starts others : List Nat} {is ts : List Instruction}
    {last : Instruction}

/-- Code at the end of a part, which does not jump and goes no further. -/
structure Ending (fs : Functions) (places : Std.TreeMap Nat Nat) (a : Nat) (code : List Cell) (names : List String)
    (starts : List Nat) (last : Instruction) (is : List Instruction) : Prop where
  balanced : ∀ P, Balanced fs places P a code names starts is
  passes : ∀ i ∈ is, i.isJump = false
  ends : is.getLast? = some last

theorem ending_halt : Ending fs places a [.op .halt] [] [] (.bare .halt rfl) [.bare .halt rfl] := by
  have hStraight : Straight 0 [.bare .halt rfl] := Straight.nil.concat (Nat.le_refl 0) rfl ⟨rfl, nofun⟩
  refine ⟨fun P => ⟨.bare .halt rfl nofun, hStraight.tidy, nofun⟩, ?_, rfl⟩
  intro i hMem
  exact (hStraight.passes i hMem).1

theorem ending_ret (hSpells : Spells fs places code names is) (hStraight : Straight 1 is) :
    Ending fs places a (code ++ [.op .ret]) names [a] (.bare .ret rfl) (is ++ [.bare .ret rfl]) := by
  refine ⟨fun P => .ret hSpells hStraight, ?_, List.getLast?_concat⟩
  intro i hMem
  rcases List.mem_append.mp hMem with hMem | hMem
  · exact (hStraight.passes i hMem).1
  · rw [List.mem_singleton.mp hMem]
    rfl

theorem Stmt.HasCode.ending (hPlaced : fs.Placed places) {s : Stmt} (hReturn : s.isReturn = true)
    (h : s.HasCode fs v a code) : ∃ is, Ending fs places a code s.callees (s.starts a) (.bare .ret rfl) is := by
  cases h with
  | ret span hOpen => exact ⟨_, ending_ret (.const (-1)) (.const (-1))⟩
  | retValue span hOpen hValue =>
    obtain ⟨is, hSpells, hStraight⟩ := hValue.straight hPlaced
    exact ⟨_, ending_ret hSpells hStraight⟩
  | _ => cases hReturn

theorem Ending.sound (h : Ending fs places (a + code.length) lastCode more others last ts)
    (hFront : ∀ P, Balanced fs places P a code names starts is) (hNames : Stmt.blockCallees body = names ++ more)
    (hStarts : Stmt.blockStarts a body ⊆ starts ++ others) :
    (code ++ lastCode).map (Cell.linked places) = Instruction.code (is ++ ts) ∧
      Part.Sound (fs.callTo? places) body last ⟨a, is ++ ts⟩ := by
  have hBoth := (hFront fun _ => False).append (h.balanced _) rfl
  have hNonempty : ts ≠ [] := by
    rintro rfl
    cases h.ends
  refine ⟨hBoth.spells.code, ?_, ?_, ?_, ?_⟩
  · refine Tidy.append ?_ ((h.balanced fun _ => False).tidy.of_no_jump h.passes)
    refine (hFront fun _ => False).tidy.mono fun t hTarget => ?_
    exact Part.levelAt_of_rests (hTarget.resolve_right id) hNonempty
  · rw [List.getLast?_append, h.ends]
    rfl
  · intro t hMem
    exact hBoth.starts t (hStarts hMem)
  · rw [hNames]
    exact hBoth.spells.calls

theorem Stmt.BlockHasCode.sound_main (hPlaced : fs.Placed places) (h : Stmt.BlockHasCode fs v a body code) :
    ∃ is, (code ++ [Cell.op .halt]).map (Cell.linked places) = Instruction.code is ∧
      Part.Sound (fs.callTo? places) body (.bare .halt rfl) ⟨a, is⟩ := by
  obtain ⟨is, hBalanced⟩ := h.balanced hPlaced
  exact ⟨_, ending_halt.sound hBalanced (List.append_nil _).symm (by simp)⟩

theorem Stmt.BlockHasCode.split_last {s : Stmt} (h : Stmt.BlockHasCode fs v a (body ++ [s]) code) :
    ∃ first second w, code = first ++ second ∧ Stmt.BlockHasCode fs v a body first ∧
      s.HasCode fs w (a + first.length) second := by
  induction body generalizing v a code with
  | nil =>
    cases h with
    | cons hFirst hLater =>
      cases hLater with
      | nil => exact ⟨[], _, v, List.append_nil _, .nil v a, hFirst⟩
  | cons s' rest ih =>
    cases h with
    | @cons _ _ _ _ front later hFirst hLater =>
      obtain ⟨first, second, w, rfl, hRest, hLast⟩ := ih hLater
      refine ⟨front ++ first, second, w, (List.append_assoc ..).symm, .cons hFirst hRest, ?_⟩
      rwa [List.length_append, ← Nat.add_assoc]

theorem Stmt.blockCallees_append (first second : List Stmt) :
    Stmt.blockCallees (first ++ second) = Stmt.blockCallees first ++ Stmt.blockCallees second := by
  induction first with
  | nil => rfl
  | cons s rest ih => rw [List.cons_append, Stmt.blockCallees, Stmt.blockCallees, ih, List.append_assoc]

theorem Stmt.blockStarts_append (a : Nat) (first second : List Stmt) :
    Stmt.blockStarts a (first ++ second) =
      Stmt.blockStarts a first ++ Stmt.blockStarts (a + Stmt.blockCodeLength first) second := by
  induction first generalizing a with
  | nil => rfl
  | cons s rest ih =>
    rw [List.cons_append, Stmt.blockStarts, Stmt.blockStarts, Stmt.blockCodeLength, ih, List.append_assoc,
      Nat.add_assoc]

theorem Stmt.BlockHasCode.sound_function (hPlaced : fs.Placed places) (h : Stmt.BlockHasCode fs v a body code) :
    ∃ is, (code ++ Draft.returnCode body).map (Cell.linked places) = Instruction.code is ∧
      Part.Sound (fs.callTo? places) body (.bare .ret rfl) ⟨a, is⟩ := by
  rw [Draft.returnCode]
  split
  · rename_i hReturn
    obtain ⟨s, hLast, hIs⟩ := (Option.any_eq_true _ _).mp hReturn
    obtain ⟨front, rfl⟩ := List.getLast?_eq_some_iff.mp hLast
    obtain ⟨first, second, w, rfl, hFront, hStmt⟩ := h.split_last
    obtain ⟨is, hBalanced⟩ := hFront.balanced hPlaced
    obtain ⟨ts, hEnding⟩ := hStmt.ending hPlaced hIs
    rw [List.append_nil]
    refine ⟨_, hEnding.sound hBalanced ?_ ?_⟩
    · rw [Stmt.blockCallees_append, Stmt.blockCallees, Stmt.blockCallees, List.append_nil]
    · rw [Stmt.blockStarts_append, Stmt.blockStarts, Stmt.blockStarts, List.append_nil, ← hFront.length_eq]
      exact fun _ => id
  · obtain ⟨is, hBalanced⟩ := h.balanced hPlaced
    exact ⟨_, (ending_ret (.const (-1)) (.const (-1))).sound hBalanced (List.append_nil _).symm (by simp)⟩

end

/-! ## Listings -/

theorem exists_mem_zip {α β : Type} {as : List α} {bs : List β} (h : as.length = bs.length) {a : α} (hMem : a ∈ as) :
    ∃ b, (a, b) ∈ as.zip bs := by
  obtain ⟨i, hGet⟩ := List.getElem?_of_mem hMem
  have hLt : i < bs.length := by
    rw [← h]
    exact (List.getElem?_eq_some_iff.mp hGet).1
  refine ⟨bs[i], List.mem_of_getElem? (i := i) ?_⟩
  rw [List.getElem?_zip_eq_some]
  exact ⟨hGet, List.getElem?_eq_getElem hLt⟩

/-- The call of a declared function: the start of its section, and how many parameters and locals it has. -/
def Listing.callTo? (l : Listing) (ds : List Declaration) (name : String) : Option Instruction := do
  let (s, d) ← (l.sections.zip ds).find? fun x => x.2.name == name
  return .call (← Word.ofNat? s.1) (← Word.ofNat? d.params.length)
    (← Word.ofNat? (Function.countLocals d.params d.body))

/-- A listing of sound parts, the main program and one for each declared function. -/
structure Listing.Composed (l : Listing) (statements : List Stmt) (main : Part) (bodies : List Part) : Prop where
  cells : l.cells = Instruction.code ((main :: bodies).flatMap Part.instructions)
  follow : Part.Follow 0 (main :: bodies)
  length : bodies.length = (Stmt.blockDeclarations statements).length
  sections : l.sections =
    (bodies.map Part.start).zip ((Stmt.blockDeclarations statements).map Declaration.name)
  entry : main.Sound (l.callTo? (Stmt.blockDeclarations statements)) statements (.bare .halt rfl)
  function : ∀ p d, (p, d) ∈ bodies.zip (Stmt.blockDeclarations statements) →
    p.Sound (l.callTo? (Stmt.blockDeclarations statements)) d.body (.bare .ret rfl)

theorem Placement.exists_parts {places : Std.TreeMap Nat Nat} {call : String → Option Instruction}
    {ps : List Placement}
    (h : ∀ p ∈ ps, ∃ is, p.code.map (Cell.linked places) = Instruction.code is ∧
      Part.Sound call p.function.body (.bare .ret rfl) ⟨p.start, is⟩) :
    ∃ bodies : List Part, bodies.map Part.start = ps.map Placement.start ∧
      (ps.flatMap Placement.code).map (Cell.linked places) = Instruction.code (bodies.flatMap Part.instructions) ∧
      (∀ a, Placement.Follow a ps → Part.Follow a bodies) ∧
      ∀ q p, (q, p) ∈ bodies.zip ps → Part.Sound call p.function.body (.bare .ret rfl) q := by
  induction ps with
  | nil => exact ⟨[], rfl, rfl, fun _ _ => trivial, nofun⟩
  | cons p ps ih =>
    obtain ⟨is, hCode, hSound⟩ := h p (List.mem_cons_self ..)
    obtain ⟨bodies, hStarts, hRest, hFollow, hSounds⟩ := ih fun p hMem => h p (List.mem_cons_of_mem _ hMem)
    refine ⟨⟨p.start, is⟩ :: bodies, ?_, ?_, ?_, ?_⟩
    · rw [List.map_cons, List.map_cons, hStarts]
    · rw [List.flatMap_cons, List.map_append, hCode, hRest, List.flatMap_cons, Instruction.code_append]
    · rintro a ⟨hStart, hLater⟩
      refine ⟨hStart, hFollow _ ?_⟩
      rw [Instruction.size, ← hCode, List.length_map]
      exact hLater
    · intro q r hMem
      rw [List.zip_cons_cons] at hMem
      rcases List.mem_cons.mp hMem with hFirst | hLater
      · cases hFirst
        exact hSound
      · exact hSounds q r hLater

theorem Placement.Follow.placed_functions {fs : Functions} {places : Std.TreeMap Nat Nat} {ps : List Placement}
    {a : Nat} (h : Follow a ps) (hFunctions : ps.map Placement.function = fs.list)
    (hPlaces : ∀ p ∈ ps, places[p.function.symbol]? = some p.start)
    (hSize : a + (ps.flatMap Placement.code).length < 2147483648) : fs.Placed places := by
  intro f hMem
  rw [← hFunctions] at hMem
  obtain ⟨p, hPlaced, rfl⟩ := List.mem_map.mp hMem
  rw [hPlaces p hPlaced]
  exact ⟨_, Word.ofNat?_eq_ofCount (Nat.lt_of_le_of_lt (h.start_le hPlaced) hSize)⟩

theorem Functions.callTo?_eq {fs : Functions} {places : Std.TreeMap Nat Nat} {ps : List Placement} {l : Listing}
    (hSound : fs.Sound) (hFunctions : ps.map Placement.function = fs.list)
    (hPlaces : ∀ p ∈ ps, places[p.function.symbol]? = some p.start)
    (hSections : l.sections = ps.map fun p => (p.start, p.function.name)) :
    fs.callTo? places = l.callTo? (fs.list.map Function.declaration) := by
  funext name
  rw [Functions.callTo?, Functions.find?, Listing.callTo?, hSections, ← hFunctions, List.map_map, List.zip_map',
    List.find?_map, List.find?_map]
  change (Option.map _ (ps.find? fun p => p.function.name == name)).bind _ =
    (Option.map _ (ps.find? fun p => p.function.name == name)).bind _
  cases hFind : ps.find? fun p => p.function.name == name with
  | none => rfl
  | some p =>
    have hMem := List.mem_of_find?_eq_some hFind
    obtain ⟨i, hGet⟩ := List.getElem?_of_mem (hFunctions ▸ List.mem_map_of_mem hMem)
    have hLocals := (hSound i _ hGet).2
    simp only [Option.map_some, Option.bind_some, hPlaces p hMem, hLocals]
    rfl

/-- With an address for each function, the cells of a draft are sound parts. -/
theorem Draft.Sound.exists_parts {fs : Functions} {places : Std.TreeMap Nat Nat} {statements : List Stmt}
    {code : List Cell} {ps : List Placement} {d : Draft} (h : Draft.Sound fs statements code ps d)
    (hPlaced : fs.Placed places) :
    ∃ main bodies,
      d.listing.cells.map (Cell.linked places) = Instruction.code ((main :: bodies).flatMap Part.instructions) ∧
      Part.Follow 0 (main :: bodies) ∧ bodies.map Part.start = ps.map Placement.start ∧
      Part.Sound (fs.callTo? places) statements (.bare .halt rfl) main ∧
      ∀ q p, (q, p) ∈ bodies.zip ps → Part.Sound (fs.callTo? places) p.function.body (.bare .ret rfl) q := by
  obtain ⟨mainCode, hMain, rfl⟩ := h.entry
  obtain ⟨is, hCode, hEntry⟩ := hMain.sound_main hPlaced
  have hBodies : ∀ p ∈ ps, ∃ is, p.code.map (Cell.linked places) = Instruction.code is ∧
      Part.Sound (fs.callTo? places) p.function.body (.bare .ret rfl) ⟨p.start, is⟩ := by
    intro p hMem
    obtain ⟨_, _, body, hBody, hEnd⟩ := h.function p hMem
    rw [hEnd]
    exact hBody.sound_function hPlaced
  obtain ⟨bodies, hStarts, hRest, hFollow, hSounds⟩ := Placement.exists_parts hBodies
  refine ⟨⟨0, is⟩, bodies, ?_, ⟨rfl, ?_⟩, hStarts, hEntry, hSounds⟩
  · rw [h.cells, List.map_append, hCode, hRest, List.flatMap_cons, Instruction.code_append]
  · rw [Nat.zero_add, Instruction.size, ← hCode, List.length_map]
    exact hFollow _ h.follow

theorem Listing.exists_composed {statements : List Stmt} {listing : Listing}
    (h : Listing.ofStatements statements = .ok listing) (hSize : listing.cells.length < 2147483648) :
    ∃ main bodies, listing.Composed statements main bodies := by
  obtain ⟨hDeclared, d, code, ps, hDraft, hFunctions, hLinked, hListing⟩ := Listing.exists_draft h
  have hSound := Functions.sound_declared statements
  have hDeclarations := Functions.declarations_declareBlock hDeclared
  rw [List.map_nil, List.nil_append] at hDeclarations
  generalize (Functions.declareBlock {} statements).1 = fs at hDraft hFunctions hSound hDeclarations
  rw [Relocations.cells_link hDraft.records hLinked, hDraft.sections] at hListing
  have hCells := congrArg Listing.cells hListing
  have hSections := congrArg Listing.sections hListing
  have hPlaces : ∀ p ∈ ps, d.relocations.places[p.function.symbol]? = some p.start :=
    fun p hMem => (hDraft.function p hMem).2.1
  have hPlaced : fs.Placed d.relocations.places := by
    refine hDraft.follow.placed_functions hFunctions hPlaces ?_
    rwa [hCells, List.length_map, hDraft.cells, List.length_append] at hSize
  obtain ⟨main, bodies, hCode, hFollow, hStarts, hEntry, hSounds⟩ := hDraft.exists_parts hPlaced
  rw [Functions.callTo?_eq hSound hFunctions hPlaces hSections] at hEntry hSounds
  rw [← hFunctions, List.map_map] at hDeclarations
  have hLength : bodies.length = ps.length := by
    simpa using congrArg List.length hStarts
  refine ⟨main, bodies, ?_⟩
  rw [← hFunctions, List.map_map, hDeclarations] at hEntry hSounds
  refine
    { cells := hCells.trans hCode
      follow := hFollow
      length := ?_
      sections := ?_
      entry := hEntry
      function := ?_ }
  · rw [hLength, ← hDeclarations, List.length_map]
  · rw [hSections, hStarts, ← hDeclarations, List.map_map, List.zip_map']
    rfl
  · intro p d hMem
    rw [← hDeclarations, List.zip_map_right, List.mem_map] at hMem
    obtain ⟨⟨q, r⟩, hPair, hEq⟩ := hMem
    cases hEq
    exact hSounds q r hPair

theorem Part.Sound.jumpsInside {call : String → Option Instruction} {body : List Stmt} {last : Instruction} {p : Part}
    (h : p.Sound call body last) : p.JumpsInside := by
  intro before i after hSplit hJump
  obtain ⟨front, w, t, hFront, hWord, first, j, rest, hInside, _, rfl⟩ := h.tidy.jumps before i after hSplit hJump
  exact ⟨front, w, hFront, first, j, rest, hInside, hWord⟩

theorem Part.Sound.size_pos {call : String → Option Instruction} {body : List Stmt} {last : Instruction} {p : Part}
    (h : p.Sound call body last) : 0 < size p.instructions := by
  obtain ⟨front, hFront⟩ := List.getLast?_eq_some_iff.mp h.ends
  rw [hFront, size_append, size_cons]
  omega

theorem Part.Follow.increasing {a : Nat} {ps : List Part} (h : Part.Follow a ps)
    (hPos : ∀ p ∈ ps, 0 < size p.instructions) :
    (∀ p ∈ ps, a ≤ p.start) ∧ (ps.map Part.start).Pairwise (· < ·) := by
  induction ps generalizing a with
  | nil => exact ⟨nofun, .nil⟩
  | cons p ps ih =>
    obtain ⟨rfl, hRest⟩ := h
    have hFirst := hPos p (List.mem_cons_self ..)
    obtain ⟨hLe, hIncreasing⟩ := ih hRest fun q hMem => hPos q (List.mem_cons_of_mem _ hMem)
    constructor
    · intro q hMem
      rcases List.mem_cons.mp hMem with rfl | hMem
      · exact Nat.le_refl _
      · exact Nat.le_trans (Nat.le_add_right ..) (hLe q hMem)
    · rw [List.map_cons, List.pairwise_cons]
      refine ⟨fun b hMem => ?_, hIncreasing⟩
      obtain ⟨q, hLater, rfl⟩ := List.mem_map.mp hMem
      have hBehind := hLe q hLater
      omega

theorem Part.Follow.exists_split {a : Nat} {ps : List Part} (h : Part.Follow a ps)
    (hDepth : ∀ p ∈ ps, depth 0 p.instructions = some 0) {p : Part} (hMem : p ∈ ps) :
    ∃ before after, ps.flatMap Part.instructions = before ++ p.instructions ++ after ∧ p.start = a + size before ∧
      depth 0 before = some 0 := by
  induction ps generalizing a with
  | nil => cases hMem
  | cons q ps ih =>
    obtain ⟨hStart, hRest⟩ := h
    rcases List.mem_cons.mp hMem with rfl | hMem
    · exact ⟨[], ps.flatMap Part.instructions, rfl, hStart, rfl⟩
    · obtain ⟨before, after, hSplit, hAddress, hBefore⟩ :=
        ih hRest (fun p hMem => hDepth p (List.mem_cons_of_mem _ hMem)) hMem
      refine ⟨q.instructions ++ before, after, ?_, ?_, ?_⟩
      · rw [List.flatMap_cons, hSplit, List.append_assoc, List.append_assoc, List.append_assoc]
      · rw [hAddress, size_append, Nat.add_assoc]
      · rw [depth_append_of_some (hDepth q (List.mem_cons_self ..)), hBefore]

theorem Instruction.symbol_not_mem_code (id : Nat) (is : List Instruction) : Cell.symbol id ∉ Instruction.code is := by
  induction is with
  | nil => exact List.not_mem_nil
  | cons i is ih => simp [cells, ih]

/-- How a linked listing divides into instructions and sections. -/
structure Listing.Divided (l : Listing) (statements : List Stmt) (main : Part) (bodies : List Part) : Prop where
  linked : ∀ id, Cell.symbol id ∉ l.cells
  cells : l.cells = Instruction.code ((main :: bodies).flatMap Part.instructions)
  follow : Part.Follow 0 (main :: bodies)
  length : bodies.length = (Stmt.blockDeclarations statements).length
  sections : l.sections =
    (bodies.map Part.start).zip ((Stmt.blockDeclarations statements).map Declaration.name)
  increasing : (l.sections.map Prod.fst).Pairwise (· < ·)
  halt : main.instructions.getLast? = some (.bare .halt rfl)
  ret : ∀ p ∈ bodies, p.instructions.getLast? = some (.bare .ret rfl)
  jumps : ∀ p ∈ main :: bodies, p.JumpsInside
  calls : ∀ p body,
    (p, body) ∈ (main :: bodies).zip (statements :: (Stmt.blockDeclarations statements).map Declaration.body) →
    (p.instructions.filter isCall).map some =
      (Stmt.blockCallees body).map (l.callTo? (Stmt.blockDeclarations statements))

namespace Listing.Composed

variable {l : Listing} {statements : List Stmt} {main : Part} {bodies : List Part}

theorem exists_declaration (h : l.Composed statements main bodies) {p : Part} (hMem : p ∈ bodies) :
    ∃ d, (p, d) ∈ bodies.zip (Stmt.blockDeclarations statements) := exists_mem_zip h.length hMem

theorem exists_sound (h : l.Composed statements main bodies) {p : Part} (hMem : p ∈ main :: bodies) :
    ∃ body last, p.Sound (l.callTo? (Stmt.blockDeclarations statements)) body last ∧
      (last = .bare .halt rfl ∨ last = .bare .ret rfl) := by
  rcases List.mem_cons.mp hMem with rfl | hMem
  · exact ⟨_, _, h.entry, .inl rfl⟩
  · obtain ⟨d, hPair⟩ := h.exists_declaration hMem
    exact ⟨_, _, h.function p d hPair, .inr rfl⟩

theorem exists_part (h : l.Composed statements main bodies) {s : Nat × String} {d : Declaration}
    (hMem : (s, d) ∈ l.sections.zip (Stmt.blockDeclarations statements)) :
    ∃ p, (p, d) ∈ bodies.zip (Stmt.blockDeclarations statements) ∧ p.start = s.1 := by
  obtain ⟨i, hGet⟩ := List.getElem?_of_mem hMem
  rw [List.getElem?_zip_eq_some, h.sections, List.getElem?_zip_eq_some, List.getElem?_map] at hGet
  obtain ⟨⟨hStart, _⟩, hDeclaration⟩ := hGet
  obtain ⟨p, hPart, hEq⟩ := Option.map_eq_some_iff.mp hStart
  refine ⟨p, List.mem_of_getElem? (i := i) ?_, hEq⟩
  rw [List.getElem?_zip_eq_some]
  exact ⟨hPart, hDeclaration⟩

theorem exists_callee (h : l.Composed statements main bodies) {p : Part} (hMem : p ∈ main :: bodies) {i : Instruction}
    (hInstruction : i ∈ p.instructions) (hCall : i.op = .call) :
    ∃ q ∈ bodies, ∃ entry nargs nlocals arity locals, i = .call entry nargs nlocals ∧
      Word.ofNat? q.start = some entry ∧ Word.ofNat? arity = some nargs ∧ Word.ofNat? locals = some nlocals := by
  obtain ⟨body, last, hSound, _⟩ := h.exists_sound hMem
  have hListed : some i ∈ (Stmt.blockCallees body).map (l.callTo? (Stmt.blockDeclarations statements)) := by
    rw [← hSound.calls, List.mem_map]
    refine ⟨i, List.mem_filter.mpr ⟨hInstruction, ?_⟩, rfl⟩
    rw [isCall, hCall]
    rfl
  obtain ⟨name, _, hTo⟩ := List.mem_map.mp hListed
  rw [Listing.callTo?] at hTo
  obtain ⟨⟨s, d⟩, hFind, hTo⟩ := Option.bind_eq_some_iff.mp hTo
  obtain ⟨entry, hEntry, hTo⟩ := Option.bind_eq_some_iff.mp hTo
  obtain ⟨nargs, hArgs, hTo⟩ := Option.bind_eq_some_iff.mp hTo
  obtain ⟨nlocals, hLocals, hTo⟩ := Option.bind_eq_some_iff.mp hTo
  cases hTo
  obtain ⟨q, hPair, hStart⟩ := h.exists_part (List.mem_of_find?_eq_some hFind)
  exact ⟨q, (List.of_mem_zip hPair).1, entry, nargs, nlocals, _, _, rfl, hStart ▸ hEntry, hArgs, hLocals⟩

end Listing.Composed

/-- Code without errors divides into a main part and one section for each function. -/
theorem Listing.exists_divided {statements : List Stmt} {listing : Listing}
    (hListing : Listing.ofStatements statements = .ok listing) (hSize : listing.cells.length < 2147483648) :
    ∃ main bodies, listing.Divided statements main bodies := by
  obtain ⟨main, bodies, h⟩ := Listing.exists_composed hListing hSize
  refine ⟨main, bodies,
    { linked := ?_
      cells := h.cells
      follow := h.follow
      length := h.length
      sections := h.sections
      increasing := ?_
      halt := h.entry.ends
      ret := ?_
      jumps := ?_
      calls := ?_ }⟩
  · intro id
    rw [h.cells]
    exact Instruction.symbol_not_mem_code id _
  · rw [h.sections, List.map_fst_zip (by simp [h.length])]
    refine (h.follow.2.increasing fun p hMem => ?_).2
    obtain ⟨d, hPair⟩ := h.exists_declaration hMem
    exact (h.function p d hPair).size_pos
  · intro p hMem
    obtain ⟨d, hPair⟩ := h.exists_declaration hMem
    exact (h.function p d hPair).ends
  · intro p hMem
    obtain ⟨body, last, hSound, _⟩ := h.exists_sound hMem
    exact hSound.jumpsInside
  · intro p body hMem
    rw [List.zip_cons_cons, List.zip_map_right] at hMem
    rcases List.mem_cons.mp hMem with hFirst | hLater
    · cases hFirst
      exact h.entry.calls
    · obtain ⟨⟨q, d⟩, hPair, hEq⟩ := List.mem_map.mp hLater
      cases hEq
      exact (h.function q d hPair).calls

/-- A function with a loop and a function inside, and a call of it. -/
def Stmt.countDown : List Stmt :=
  let span := Span.nowhere
  let x := Expr.var span "x"
  [.function span "down" ["x"]
    [.function span "one" [] [.ret span (some (.int span 1))],
      .whileLoop span x [.assign span "x" (.binary .sub span x (.call span "one" []))]],
    .print span (.call span "down" [.int span 2])]

theorem Listing.exists_divided_countDown :
    (∃ main bodies, (Listing.generate Stmt.countDown).listing.Divided Stmt.countDown main bodies) ∧
      (Listing.generate Stmt.countDown).listing.sections = [(8, "down"), (30, "one")] :=
  ⟨Listing.exists_divided rfl (by decide +kernel), by decide +kernel⟩

end Vee
