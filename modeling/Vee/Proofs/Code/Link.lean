import Vee.Proofs.Effect
import Vee.Relocations

/-! # Linking

What becomes of a record depends on its cell and on the places alone: the cell is patched, or an error is found. Every
symbol among the cells of a listing is on record, so that linking without an error leaves none. The words of the program
are those of the cells, a symbol standing for the address at which its function was placed.
-/

namespace Vee

set_option autoImplicit false

/-- The word of a cell, given where the functions stand. -/
def Cell.word? (places : Std.TreeMap Nat Nat) : Cell → Option Word
  | .op o => some o.word
  | .int n => some n
  | .symbol id => places[id]?.bind Word.ofNat?

/-- A cell with the address of a placed function in place of its symbol. -/
def Cell.linked (places : Std.TreeMap Nat Nat) : Cell → Cell
  | .op o => .op o
  | .int n => .int n
  | .symbol id => ((places[id]?.bind Word.ofNat?).map Cell.int).getD (.symbol id)

/-- The program has the words of the cells from an address on. -/
def Program.Holds (p : Program) (places : Std.TreeMap Nat Nat) : Nat → List Cell → Prop
  | _, [] => True
  | a, c :: rest => (∃ w, c.word? places = some w ∧ p.words[a]? = some w) ∧ Holds p places (a + 1) rest

namespace Program

variable {p : Program} {places : Std.TreeMap Nat Nat} {a : Nat}

@[simp] theorem holds_nil : p.Holds places a [] ↔ True := Iff.rfl

@[simp] theorem holds_op {o : Opcode} {rest : List Cell} :
    p.Holds places a (.op o :: rest) ↔ p.words[a]? = some o.word ∧ p.Holds places (a + 1) rest := by
  simp [Holds, Cell.word?]

@[simp] theorem holds_int {n : Word} {rest : List Cell} :
    p.Holds places a (.int n :: rest) ↔ p.words[a]? = some n ∧ p.Holds places (a + 1) rest := by
  simp [Holds, Cell.word?]

@[simp] theorem holds_symbol {id : Nat} {rest : List Cell} :
    p.Holds places a (.symbol id :: rest) ↔
      (∃ target w, places[id]? = some target ∧ Word.ofNat? target = some w ∧ p.words[a]? = some w) ∧
        p.Holds places (a + 1) rest := by
  simp only [Holds, Cell.word?, Option.bind_eq_some_iff]
  constructor
  · rintro ⟨⟨w, ⟨target, hPlace, hWord⟩, hRead⟩, hRest⟩
    exact ⟨⟨target, w, hPlace, hWord, hRead⟩, hRest⟩
  · rintro ⟨⟨target, w, hPlace, hWord, hRead⟩, hRest⟩
    exact ⟨⟨w, ⟨target, hPlace, hWord⟩, hRead⟩, hRest⟩

@[simp] theorem holds_append {first second : List Cell} :
    p.Holds places a (first ++ second) ↔ p.Holds places a first ∧ p.Holds places (a + first.length) second := by
  induction first generalizing a with
  | nil => simp
  | cons c rest ih =>
    rw [List.cons_append, Holds, Holds, ih, List.length_cons, and_assoc]
    rw [show a + 1 + rest.length = a + (rest.length + 1) by omega]

theorem Holds.length_le {cells : List Cell} (h : p.Holds places a cells) (hPos : 0 < cells.length) :
    a + cells.length ≤ p.words.size := by
  induction cells generalizing a with
  | nil => exact absurd hPos (Nat.lt_irrefl 0)
  | cons c rest ih =>
    obtain ⟨⟨w, _, hRead⟩, hRest⟩ := h
    have hLt := (Array.getElem?_eq_some_iff.mp hRead).1
    rw [List.length_cons]
    cases rest with
    | nil => exact hLt
    | cons d rest =>
      have hLe := ih hRest (Nat.zero_lt_succ _)
      omega

theorem holds_of_getElem? {cells : List Cell}
    (h : ∀ i c, cells[i]? = some c → ∃ w, c.word? places = some w ∧ p.words[a + i]? = some w) :
    p.Holds places a cells := by
  induction cells generalizing a with
  | nil => trivial
  | cons c rest ih =>
    refine ⟨h 0 c rfl, ih fun i d hGet => ?_⟩
    rw [Nat.add_assoc, Nat.add_comm 1 i]
    exact h (i + 1) d (by simpa using hGet)

end Program

namespace Relocations

/-- The records are the symbols among the cells. -/
def Records (r : Relocations) (cells : List Cell) : Prop :=
  ∀ a id : Nat, r.unlinked[a]? = some id ↔ cells[a]? = some (Cell.symbol id)

variable {r : Relocations} {cells : List Cell}

theorem records_new : Records {} [] := by
  intro a id
  simp

theorem places_scan (r : Relocations) (a : Nat) (cells : List Cell) : (r.scan a cells).places = r.places := by
  induction cells generalizing r a with
  | nil => rfl
  | cons c rest ih => cases c <;> exact ih _ _

theorem Records.concat_await (h : r.Records cells) (id : Nat) :
    (r.await cells.length id).Records (cells ++ [.symbol id]) := by
  intro a other
  rw [await, Std.TreeMap.getElem?_insert, List.getElem?_append]
  by_cases hEnd : cells.length = a
  · subst hEnd
    simp
  · rw [if_neg (by simpa using hEnd), h a other]
    split
    · rfl
    · rename_i hOut
      rw [List.getElem?_eq_none (by omega), List.getElem?_eq_none (by simp; omega)]

theorem Records.concat_other (h : r.Records cells) {c : Cell} (hOther : ∀ id, c ≠ .symbol id) :
    r.Records (cells ++ [c]) := by
  intro a id
  rw [h a id, List.getElem?_append]
  split
  · rfl
  · rename_i hOut
    rw [List.getElem?_eq_none (by omega)]
    cases hIndex : a - cells.length with
    | zero => simpa using hOther id
    | succ n => simp

theorem Records.scan (h : r.Records cells) (more : List Cell) :
    (r.scan cells.length more).Records (cells ++ more) := by
  induction more generalizing r cells with
  | nil => simpa [Relocations.scan] using h
  | cons c rest ih =>
    rw [List.append_cons]
    have hLength : cells.length + 1 = (cells ++ [c]).length := by simp
    cases c with
    | op o =>
      rw [Relocations.scan, hLength]
      · exact ih (h.concat_other fun _ => nofun)
      · exact fun _ => nofun
    | int n =>
      rw [Relocations.scan, hLength]
      · exact ih (h.concat_other fun _ => nofun)
      · exact fun _ => nofun
    | symbol id =>
      rw [Relocations.scan, hLength]
      exact ih (h.concat_await id)

/-! ## Patching -/

/-- What becomes of a record: the word that goes into its cell, or an error. -/
def settle (places : Std.TreeMap Nat Nat) (cells : List Cell) (a id : Nat) : Except LinkError Word :=
  match places[id]? with
  | none => .error (.unresolved a id)
  | some target =>
    match cells[a]?, Word.ofNat? target with
    | some (.symbol _), some w => .ok w
    | _, _ => .error (.unpatched a)

def failure? (places : Std.TreeMap Nat Nat) (cells : List Cell) (a id : Nat) : Option LinkError :=
  match settle places cells a id with
  | .ok _ => none
  | .error e => some e

/-- Patches records one after the other. -/
def linkAll (places : Std.TreeMap Nat Nat) (done : Linked) (records : List (Nat × Nat)) : Linked :=
  records.foldl (fun done (address, symbol) => linkOne places done address symbol) done

section

variable {places : Std.TreeMap Nat Nat} {cells others : List Cell} {done : Linked} {records : List (Nat × Nat)}
    {a id : Nat} {w : Word} {e : LinkError}

theorem settle_eq_ok : settle places cells a id = .ok w ↔
    places[id]?.bind Word.ofNat? = some w ∧ ∃ other, cells[a]? = some (.symbol other) := by
  rw [settle]
  constructor
  · intro h
    split at h
    · cases h
    · rename_i target hTarget
      split at h
      · rename_i hCell hWord
        cases h
        exact ⟨by rw [hTarget, Option.bind_some, hWord], _, hCell⟩
      · cases h
  · rintro ⟨hPlace, other, hCell⟩
    obtain ⟨target, hTarget, hWord⟩ := Option.bind_eq_some_iff.mp hPlace
    simp only [hTarget, hCell, hWord]

theorem settle_eq_error : settle places cells a id = .error e ↔
    (places[id]? = none ∧ e = .unresolved a id) ∨
      (places[id]? ≠ none ∧ e = .unpatched a ∧ ∀ w, settle places cells a id ≠ .ok w) := by
  rw [settle]
  split
  · rename_i hNone
    simp [hNone, eq_comm]
  · rename_i target hTarget
    split
    · simp [hTarget]
    · simp [hTarget, eq_comm]

theorem settle_congr (h : cells[a]? = others[a]?) : settle places cells a id = settle places others a id := by
  rw [settle, settle, h]

theorem failure?_congr (h : cells[a]? = others[a]?) : failure? places cells a id = failure? places others a id := by
  rw [failure?, failure?, settle_congr h]

theorem failure?_eq_some : failure? places cells a id = some e ↔ settle places cells a id = .error e := by
  rw [failure?]
  cases settle places cells a id with
  | ok w => simp
  | error d => simp

theorem failure?_eq_none : failure? places cells a id = none ↔ ∃ w, settle places cells a id = .ok w := by
  rw [failure?]
  cases settle places cells a id with
  | ok w => simp
  | error d => simp

theorem linkOne_of_ok (h : settle places done.cells a id = .ok w) :
    linkOne places done a id =
      { done with cells := done.cells.set a (.int w), patches := done.patches ++ [⟨id, a, w⟩] } := by
  obtain ⟨hPlace, other, hCell⟩ := settle_eq_ok.mp h
  obtain ⟨target, hTarget, hWord⟩ := Option.bind_eq_some_iff.mp hPlace
  simp only [linkOne, hTarget, hCell, hWord]

theorem linkOne_of_error (h : settle places done.cells a id = .error e) :
    linkOne places done a id = { done with errors := done.errors ++ [e] } := by
  rw [settle] at h
  rw [linkOne]
  split
  · rename_i hNone
    rw [hNone] at h
    cases h
    rfl
  · rename_i target hTarget
    simp only [hTarget] at h
    split
    · rename_i hCell hWord
      simp only [hCell, hWord] at h
      cases h
    · rename_i hNot
      split at h
      · rename_i hCell hWord
        exact absurd hWord (hNot _ _ hCell)
      · cases h
        rfl

/-- A record changes its own cell only. -/
theorem getElem?_linkOne_of_ne {i : Nat} (h : a ≠ i) : (linkOne places done a id).cells[i]? = done.cells[i]? := by
  cases hSettle : settle places done.cells a id with
  | ok w => rw [linkOne_of_ok hSettle, List.getElem?_set_ne h]
  | error e => rw [linkOne_of_error hSettle]

theorem getElem?_linkOne : (linkOne places done a id).cells[a]? =
    ((settle places done.cells a id).toOption.map Cell.int).or done.cells[a]? := by
  cases hSettle : settle places done.cells a id with
  | ok w =>
    obtain ⟨_, other, hCell⟩ := settle_eq_ok.mp hSettle
    rw [linkOne_of_ok hSettle, List.getElem?_set_self (List.getElem?_eq_some_iff.mp hCell).1]
    rfl
  | error e =>
    rw [linkOne_of_error hSettle]
    rfl

theorem errors_linkOne :
    (linkOne places done a id).errors = done.errors ++ (failure? places done.cells a id).toList := by
  rw [failure?]
  cases hSettle : settle places done.cells a id with
  | ok w =>
    rw [linkOne_of_ok hSettle]
    exact (List.append_nil _).symm
  | error e =>
    rw [linkOne_of_error hSettle]
    rfl

theorem length_linkAll : (linkAll places done records).cells.length = done.cells.length := by
  induction records generalizing done with
  | nil => rfl
  | cons record records ih =>
    obtain ⟨a, id⟩ := record
    refine ih.trans ?_
    change (linkOne places done a id).cells.length = done.cells.length
    cases hSettle : settle places done.cells a id with
    | ok w => rw [linkOne_of_ok hSettle, List.length_set]
    | error e => rw [linkOne_of_error hSettle]

theorem getElem?_linkAll_of_not_mem {i : Nat} (h : ∀ id, (i, id) ∉ records) :
    (linkAll places done records).cells[i]? = done.cells[i]? := by
  induction records generalizing done with
  | nil => rfl
  | cons record records ih =>
    obtain ⟨a, id⟩ := record
    have hNe : a ≠ i := by
      rintro rfl
      exact h id List.mem_cons_self
    refine (ih fun other hMem => h other (List.mem_cons_of_mem _ hMem)).trans ?_
    exact getElem?_linkOne_of_ne hNe

/-- Each record is settled by its cell as it was before all of them. -/
theorem getElem?_linkAll_of_mem (hDistinct : records.Pairwise fun x y => x.1 ≠ y.1) (hMem : (a, id) ∈ records) :
    (linkAll places done records).cells[a]? =
      ((settle places done.cells a id).toOption.map Cell.int).or done.cells[a]? := by
  induction records generalizing done with
  | nil => cases hMem
  | cons record records ih =>
    obtain ⟨hNew, hDistinct⟩ := List.pairwise_cons.mp hDistinct
    rcases List.mem_cons.mp hMem with rfl | hLater
    · refine (getElem?_linkAll_of_not_mem fun other hMem => hNew _ hMem rfl).trans ?_
      exact getElem?_linkOne
    · have hKept : (linkOne places done record.1 record.2).cells[a]? = done.cells[a]? :=
        getElem?_linkOne_of_ne (hNew _ hLater)
      refine (ih hDistinct hLater).trans ?_
      rw [settle_congr hKept, hKept]

theorem errors_linkAll (hDistinct : records.Pairwise fun x y => x.1 ≠ y.1) :
    (linkAll places done records).errors =
      done.errors ++ records.filterMap fun x => failure? places done.cells x.1 x.2 := by
  induction records generalizing done with
  | nil => exact (List.append_nil _).symm
  | cons record records ih =>
    obtain ⟨hNew, hDistinct⟩ := List.pairwise_cons.mp hDistinct
    refine (ih hDistinct).trans ?_
    rw [errors_linkOne, List.append_assoc]
    -- The first record leaves the cells of the others alone, so that they fail as they would have before it.
    have hLater : (records.filterMap fun x => failure? places (linkOne places done record.1 record.2).cells x.1 x.2) =
        records.filterMap fun x => failure? places done.cells x.1 x.2 :=
      List.filterMap_congr fun x hMem => failure?_congr (getElem?_linkOne_of_ne (hNew x hMem))
    rw [hLater, List.filterMap_cons]
    cases failure? places done.cells record.1 record.2 with
    | none => rfl
    | some e => rfl

end

theorem distinct_unlinked (r : Relocations) : r.unlinked.toList.Pairwise fun x y => x.1 ≠ y.1 :=
  Std.TreeMap.distinct_keys_toList.imp fun h => by simpa using h

theorem length_link (r : Relocations) (cells : List Cell) : (r.link cells).1.cells.length = cells.length :=
  length_linkAll

theorem errors_link (r : Relocations) (cells : List Cell) :
    (r.link cells).1.errors = r.unlinked.toList.filterMap fun x => failure? r.places cells x.1 x.2 :=
  errors_linkAll r.distinct_unlinked

theorem getElem?_link (r : Relocations) (cells : List Cell) (i : Nat) :
    (r.link cells).1.cells[i]? =
      ((r.unlinked[i]?.bind fun id => (settle r.places cells i id).toOption).map Cell.int).or cells[i]? := by
  cases hRecord : r.unlinked[i]? with
  | none =>
    refine getElem?_linkAll_of_not_mem fun id hMem => ?_
    rw [Std.TreeMap.mem_toList_iff_getElem?_eq_some, hRecord] at hMem
    cases hMem
  | some id =>
    exact getElem?_linkAll_of_mem r.distinct_unlinked
      (Std.TreeMap.mem_toList_iff_getElem?_eq_some.mpr hRecord)

/-- Linking finds no error if all records can be settled. -/
theorem errors_link_eq_nil {r : Relocations} {cells : List Cell} :
    (r.link cells).1.errors = [] ↔
      ∀ a id, r.unlinked[a]? = some id → ∃ w, settle r.places cells a id = .ok w := by
  simp only [errors_link, List.filterMap_eq_nil_iff, failure?_eq_none, Prod.forall,
    Std.TreeMap.mem_toList_iff_getElem?_eq_some]

theorem Records.errors_link {r : Relocations} {cells : List Cell} (h : r.Records cells)
    (hPlaces : ∀ id, Cell.symbol id ∈ cells → ∃ w, r.places[id]?.bind Word.ofNat? = some w) :
    (r.link cells).1.errors = [] := by
  rw [errors_link_eq_nil]
  intro a id hRecord
  have hCell := (h a id).mp hRecord
  obtain ⟨w, hWord⟩ := hPlaces id (List.mem_of_getElem? hCell)
  exact ⟨w, settle_eq_ok.mpr ⟨hWord, id, hCell⟩⟩

end Relocations

/-! ## Words -/

theorem Listing.wordsFrom_of_word? {cells : List Cell} {words : List Word} {a : Nat}
    (h : cells.map (Cell.word? ∅) = words.map some) : Listing.wordsFrom a cells = .ok words := by
  induction cells generalizing words a with
  | nil =>
    cases words with
    | nil => rfl
    | cons w words => cases h
  | cons c cells ih =>
    cases words with
    | nil => cases h
    | cons w words =>
      rw [List.map_cons, List.map_cons, List.cons.injEq] at h
      obtain ⟨hFirst, hRest⟩ := h
      cases c with
      | op o =>
        cases hFirst
        simp only [Listing.wordsFrom, ih hRest]
        rfl
      | int n =>
        cases hFirst
        simp only [Listing.wordsFrom, ih hRest]
        rfl
      | symbol id => simp [Cell.word?] at hFirst

theorem Listing.word?_of_wordsFrom {cells : List Cell} {words : List Word} {a : Nat}
    (h : Listing.wordsFrom a cells = .ok words) (places : Std.TreeMap Nat Nat) :
    cells.map (Cell.word? places) = words.map some := by
  induction cells generalizing words a with
  | nil =>
    cases h
    rfl
  | cons c cells ih =>
    cases c with
    | op o =>
      obtain ⟨rest, hRest, hWords⟩ := Effect.exists_of_except_bind h
      cases hWords
      rw [List.map_cons, List.map_cons, ih hRest]
      rfl
    | int n =>
      obtain ⟨rest, hRest, hWords⟩ := Effect.exists_of_except_bind h
      cases hWords
      rw [List.map_cons, List.map_cons, ih hRest]
      rfl
    | symbol id => cases h

theorem exists_map_some {words : List (Option Word)} (h : ∀ w ∈ words, w ≠ none) :
    ∃ values : List Word, words = values.map some := by
  induction words with
  | nil => exact ⟨[], rfl⟩
  | cons w words ih =>
    obtain ⟨values, rfl⟩ := ih fun w hMem => h w (List.mem_cons_of_mem _ hMem)
    obtain ⟨value, rfl⟩ := Option.ne_none_iff_exists'.mp (h w (List.mem_cons_self ..))
    exact ⟨value :: values, rfl⟩

namespace Relocations

variable {r : Relocations} {cells : List Cell} (hRecords : r.Records cells)
    (hErrors : (r.link cells).1.errors = [])

include hRecords hErrors

theorem exists_word {i id : Nat} (hCell : cells[i]? = some (.symbol id)) :
    ∃ w, settle r.places cells i id = .ok w ∧ r.places[id]?.bind Word.ofNat? = some w := by
  obtain ⟨w, hSettle⟩ := errors_link_eq_nil.mp hErrors i id ((hRecords i id).mpr hCell)
  exact ⟨w, hSettle, (settle_eq_ok.mp hSettle).1⟩

theorem getElem?_link_of_no_error (i : Nat) :
    (r.link cells).1.cells[i]? = cells[i]?.map (Cell.linked r.places) ∧
      cells[i]?.map (Cell.word? r.places) ≠ some none := by
  rw [getElem?_link]
  have hFree : (∀ id, cells[i]? ≠ some (Cell.symbol id)) → r.unlinked[i]? = none := by
    intro hOther
    cases hRecord : r.unlinked[i]? with
    | none => rfl
    | some id => exact absurd ((hRecords i id).mp hRecord) (hOther id)
  cases hCell : cells[i]? with
  | none =>
    rw [hFree (by simp [hCell])]
    exact ⟨rfl, by simp⟩
  | some c =>
    cases c with
    | op o =>
      rw [hFree (by simp [hCell])]
      exact ⟨rfl, by simp [Cell.word?]⟩
    | int n =>
      rw [hFree (by simp [hCell])]
      exact ⟨rfl, by simp [Cell.word?]⟩
    | symbol id =>
      obtain ⟨w, hSettle, hWord⟩ := exists_word hRecords hErrors hCell
      rw [(hRecords i id).mpr hCell, Option.bind_some, hSettle, Option.map_some, Option.map_some, Cell.linked,
        Cell.word?, hWord]
      exact ⟨rfl, by simp⟩

theorem cells_link : (r.link cells).1.cells = cells.map (Cell.linked r.places) := by
  apply List.ext_getElem?
  intro i
  rw [List.getElem?_map]
  exact (getElem?_link_of_no_error hRecords hErrors i).1

/-- Linked cells are the words of the cells before. -/
theorem exists_words :
    ∃ words : List Word, (∀ a, Listing.wordsFrom a (r.link cells).1.cells = .ok words) ∧
      words.length = (r.link cells).1.cells.length ∧ cells.map (Cell.word? r.places) = words.map some := by
  have hSome : ∀ c ∈ cells, c.word? r.places ≠ none := by
    intro c hMem hNone
    obtain ⟨i, hGet⟩ := List.getElem?_of_mem hMem
    refine (getElem?_link_of_no_error hRecords hErrors i).2 ?_
    rw [hGet, Option.map_some, hNone]
  have hSame : (r.link cells).1.cells.map (Cell.word? ∅) = cells.map (Cell.word? r.places) := by
    rw [cells_link hRecords hErrors, List.map_map]
    refine List.map_congr_left fun c hMem => ?_
    cases c with
    | op o => rfl
    | int n => rfl
    | symbol id =>
      obtain ⟨w, hWord⟩ := Option.ne_none_iff_exists'.mp (hSome _ hMem)
      rw [Cell.word?] at hWord
      rw [Function.comp_apply, Cell.linked, Cell.word?, hWord]
      rfl
  have hWords : ∀ w ∈ cells.map (Cell.word? r.places), w ≠ none := by simpa using hSome
  obtain ⟨words, hValues⟩ := exists_map_some hWords
  refine ⟨words, fun a => Listing.wordsFrom_of_word? (hSame.trans hValues), ?_, hValues⟩
  simpa using (congrArg List.length (hSame.trans hValues)).symm

end Relocations

end Vee
