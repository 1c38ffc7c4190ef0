import Vee.Proofs.Code.Symbols

/-! # What linking patches

Whatever was recorded, and in whatever order: linking changes a cell if it holds a symbol and its last record names a
function whose place is a word. All other records are reported in the order of their addresses, each for its own reason,
and none is left. The records of generated code are all patched, also if there are errors in the program.
-/

namespace Vee

set_option autoImplicit false

def Cell.symbol? : Cell → Option Nat
  | .symbol id => some id
  | _ => none

/-- The symbols among cells that stand from an address on, each behind its own address. -/
def Cell.symbolsFrom (a : Nat) (cells : List Cell) : List (Nat × Nat) :=
  (cells.zipIdx a).filterMap fun x => x.1.symbol?.map fun id => (x.2, id)

theorem Cell.symbolsFrom_cons (a : Nat) (c : Cell) (cells : List Cell) :
    Cell.symbolsFrom a (c :: cells) = (c.symbol?.map fun id => (a, id)).toList ++ Cell.symbolsFrom (a + 1) cells := by
  rw [Cell.symbolsFrom, List.zipIdx_cons, List.filterMap_cons]
  cases c with
  | op o => rfl
  | int n => rfl
  | symbol id => rfl

namespace Relocations

/-! ## Requests -/

inductive Request where
  | place (symbol address : Nat)
  | await (address symbol : Nat)
  | scan (address : Nat) (cells : List Cell)

def Request.apply (r : Relocations) : Request → Relocations
  | place symbol a => r.place symbol a
  | await a symbol => r.await a symbol
  | scan a cells => r.scan a cells

/-- The relocations behind requests, one after the other. -/
def after (r : Relocations) : List Request → Relocations
  | [] => r
  | q :: rest => after (q.apply r) rest

/-- The symbols that a request places, with their places. -/
def Request.places : Request → List (Nat × Nat)
  | place symbol a => [(symbol, a)]
  | _ => []

/-- The addresses that a request records, with their symbols. -/
def Request.records : Request → List (Nat × Nat)
  | place _ _ => []
  | await a symbol => [(a, symbol)]
  | scan a cells => Cell.symbolsFrom a cells

/-- The last value that was given for a key. -/
def last? (entries : List (Nat × Nat)) (key : Nat) : Option Nat := entries.reverse.lookup key

def placeOf? (requests : List Request) (symbol : Nat) : Option Nat := last? (requests.flatMap Request.places) symbol

def recordOf? (requests : List Request) (a : Nat) : Option Nat := last? (requests.flatMap Request.records) a

/-- The cell at an address holds a symbol, and its record names one that was placed at a target that is a word. -/
def Due (requests : List Request) (cells : List Cell) (a target : Nat) : Prop :=
  ∃ symbol held, recordOf? requests a = some symbol ∧ placeOf? requests symbol = some target ∧ target < 2147483648 ∧
    cells[a]? = some (.symbol held)

/-- What linking has to report: each record that is not due, with the address that it is for. -/
inductive Reported (requests : List Request) (cells : List Cell) : Diagnostic → Prop where
  | unresolved {a symbol : Nat} (hRecord : recordOf? requests a = some symbol)
      (hPlace : placeOf? requests symbol = none) : Reported requests cells
        { code := .internal, address := some a, detail := "UNRESOLVED SYMBOL $" ++ symbol.repr }
  | unpatched {a symbol target : Nat} (hRecord : recordOf? requests a = some symbol)
      (hPlace : placeOf? requests symbol = some target) (hNot : ¬ Due requests cells a target) :
      Reported requests cells { code := .internal, address := some a, detail := "LINK FAILURE" }

/-- Cells that have been linked behind requests: what is due is patched and nothing else, and what is not due is
reported. -/
structure Linked.Exact (requests : List Request) (cells : List Cell) (l : Linked) : Prop where
  length : l.cells.length = cells.length
  changed : ∀ a, l.cells[a]? ≠ cells[a]? ↔ ∃ target, Due requests cells a target
  patched : ∀ a target, Due requests cells a target → ∃ w : Word, w.toInt = target ∧ l.cells[a]? = some (.int w)
  ordered : (l.errors.map LinkError.diagnostic).Pairwise fun d e =>
    ∃ a b, d.address = some a ∧ e.address = some b ∧ a < b
  reported : ∀ d, d ∈ l.errors.map LinkError.diagnostic ↔ Reported requests cells d

/-! ## The last entry counts -/

theorem last?_append (first second : List (Nat × Nat)) (key : Nat) :
    last? (first ++ second) key = (last? second key).or (last? first key) := by
  rw [last?, List.reverse_append, List.lookup_append]
  rfl

theorem getElem?_insert_eq_last? (t : Std.TreeMap Nat Nat) (k v a : Nat) :
    (t.insert k v)[a]? = (last? [(k, v)] a).or t[a]? := by
  rw [Std.TreeMap.getElem?_insert, last?, List.reverse_singleton, List.lookup_cons]
  by_cases hKey : a = k
  · simp [hKey]
  · have hOther : (a == k) = false := by simpa using hKey
    simp [hOther, Ne.symm hKey]

theorem unlinked_scan (r : Relocations) (a : Nat) (cells : List Cell) (i : Nat) :
    (r.scan a cells).unlinked[i]? = (last? (Cell.symbolsFrom a cells) i).or r.unlinked[i]? := by
  induction cells generalizing r a with
  | nil => rfl
  | cons c rest ih =>
    rw [Cell.symbolsFrom_cons, last?_append, Option.or_assoc]
    cases c with
    | op o => exact ih r (a + 1)
    | int n => exact ih r (a + 1)
    | symbol id =>
      refine (ih (r.await a id) (a + 1)).trans ?_
      rw [await, getElem?_insert_eq_last?]
      rfl

theorem places_apply (q : Request) (r : Relocations) (symbol : Nat) :
    (q.apply r).places[symbol]? = (last? q.places symbol).or r.places[symbol]? := by
  cases q with
  | place other a => exact getElem?_insert_eq_last? _ _ _ _
  | await a other => rfl
  | scan a cells =>
    rw [Request.apply, places_scan]
    rfl

theorem unlinked_apply (q : Request) (r : Relocations) (a : Nat) :
    (q.apply r).unlinked[a]? = (last? q.records a).or r.unlinked[a]? := by
  cases q with
  | place symbol b => rfl
  | await b symbol => exact getElem?_insert_eq_last? _ _ _ _
  | scan b cells => exact unlinked_scan r b cells a

theorem places_after (requests : List Request) (r : Relocations) (symbol : Nat) :
    (r.after requests).places[symbol]? = (placeOf? requests symbol).or r.places[symbol]? := by
  induction requests generalizing r with
  | nil => rfl
  | cons q rest ih =>
    rw [after, ih, places_apply, placeOf?, placeOf?, List.flatMap_cons, last?_append, Option.or_assoc]

theorem unlinked_after (requests : List Request) (r : Relocations) (a : Nat) :
    (r.after requests).unlinked[a]? = (recordOf? requests a).or r.unlinked[a]? := by
  induction requests generalizing r with
  | nil => rfl
  | cons q rest ih =>
    rw [after, ih, unlinked_apply, recordOf?, recordOf?, List.flatMap_cons, last?_append, Option.or_assoc]

section

variable (requests : List Request)

theorem places_requested (symbol : Nat) : (after {} requests).places[symbol]? = placeOf? requests symbol := by
  rw [places_after]
  simp

theorem unlinked_requested (a : Nat) : (after {} requests).unlinked[a]? = recordOf? requests a := by
  rw [unlinked_after]
  simp

end

/-! ## Cells -/

section

variable {requests : List Request} {cells : List Cell} {a target : Nat}

/-- What is due are the records that linking settles. -/
theorem due_iff : Due requests cells a target ↔ ∃ symbol w, recordOf? requests a = some symbol ∧
    settle (after {} requests).places cells a symbol = .ok w ∧ w.toInt = target := by
  simp only [settle_eq_ok, places_requested]
  constructor
  · rintro ⟨symbol, held, hRecord, hPlace, hSize, hCell⟩
    obtain ⟨w, hWord⟩ := Word.exists_ofNat?_iff.mpr hSize
    refine ⟨symbol, w, hRecord, ⟨?_, held, hCell⟩, Word.toInt_of_ofInt? hWord⟩
    rw [hPlace, Option.bind_some, hWord]
  · rintro ⟨symbol, w, hRecord, ⟨hPlace, held, hCell⟩, hValue⟩
    obtain ⟨place, hPlace, hWord⟩ := Option.bind_eq_some_iff.mp hPlace
    have hSame : place = target := Int.ofNat_inj.mp ((Word.toInt_of_ofInt? hWord).symm.trans hValue)
    subst hSame
    exact ⟨symbol, held, hRecord, hPlace, Word.lt_of_ofNat? hWord, hCell⟩

theorem Due.getElem?_link (h : Due requests cells a target) :
    ∃ w : Word, w.toInt = target ∧ ((after {} requests).link cells).1.cells[a]? = some (.int w) := by
  obtain ⟨symbol, w, hRecord, hSettle, hValue⟩ := due_iff.mp h
  refine ⟨w, hValue, ?_⟩
  rw [Relocations.getElem?_link, unlinked_requested, hRecord, Option.bind_some, hSettle]
  rfl

theorem getElem?_link_of_not_due (h : ∀ target, ¬ Due requests cells a target) :
    ((after {} requests).link cells).1.cells[a]? = cells[a]? := by
  rw [getElem?_link, unlinked_requested]
  cases hRecord : recordOf? requests a with
  | none => rfl
  | some symbol =>
    rw [Option.bind_some]
    cases hSettle : settle (after {} requests).places cells a symbol with
    | error e => rfl
    | ok w =>
      -- A word that is settled on is the place of the symbol, so that the cell is due.
      obtain ⟨place, _, hWord⟩ := Option.bind_eq_some_iff.mp (settle_eq_ok.mp hSettle).1
      exact absurd (due_iff.mpr ⟨symbol, w, hRecord, hSettle, Word.toInt_of_ofInt? hWord⟩) (h place)

theorem changed_iff_due :
    ((after {} requests).link cells).1.cells[a]? ≠ cells[a]? ↔ ∃ target, Due requests cells a target := by
  constructor
  · intro hChanged
    by_contra hNot
    exact hChanged (getElem?_link_of_not_due (not_exists.mp hNot))
  · rintro ⟨target, hDue⟩ hSame
    obtain ⟨w, _, hPatched⟩ := hDue.getElem?_link
    obtain ⟨_, held, _, _, _, hCell⟩ := hDue
    rw [hPatched, hCell] at hSame
    cases hSame

/-! ## Errors -/

theorem address_of_failure? {places : Std.TreeMap Nat Nat} {id : Nat} {e : LinkError}
    (h : failure? places cells a id = some e) : e.diagnostic.address = some a := by
  rcases settle_eq_error.mp (failure?_eq_some.mp h) with ⟨_, rfl⟩ | ⟨_, rfl, _⟩
  · rfl
  · rfl

theorem ordered_errors_link (r : Relocations) (cells : List Cell) :
    ((r.link cells).1.errors.map LinkError.diagnostic).Pairwise fun d e =>
      ∃ a b, d.address = some a ∧ e.address = some b ∧ a < b := by
  rw [errors_link, List.pairwise_map]
  refine Std.TreeMap.ordered_keys_toList.filterMap _ ?_
  intro x y hLess d hFirst e hSecond
  exact ⟨x.1, y.1, address_of_failure? hFirst, address_of_failure? hSecond, Nat.compare_eq_lt.mp hLess⟩

theorem mem_errors_link {e : LinkError} : e ∈ ((after {} requests).link cells).1.errors ↔
    ∃ a symbol, recordOf? requests a = some symbol ∧ settle (after {} requests).places cells a symbol = .error e := by
  simp only [errors_link, List.mem_filterMap, Prod.exists, Std.TreeMap.mem_toList_iff_getElem?_eq_some,
    unlinked_requested, failure?_eq_some]

/-- A record of a placed symbol fails if it is not due. -/
theorem not_due_iff {symbol : Nat} (hRecord : recordOf? requests a = some symbol)
    (hPlace : placeOf? requests symbol = some target) :
    ¬ Due requests cells a target ↔ ∀ w, settle (after {} requests).places cells a symbol ≠ .ok w := by
  rw [due_iff]
  constructor
  · intro hNot w hSettle
    obtain ⟨place, hOther, hWord⟩ := Option.bind_eq_some_iff.mp (settle_eq_ok.mp hSettle).1
    rw [places_requested, hPlace] at hOther
    cases hOther
    exact hNot ⟨symbol, w, hRecord, hSettle, Word.toInt_of_ofInt? hWord⟩
  · rintro hNone ⟨other, w, hOther, hSettle, _⟩
    rw [hRecord] at hOther
    cases hOther
    exact hNone w hSettle

theorem reported_iff (d : Diagnostic) :
    d ∈ ((after {} requests).link cells).1.errors.map LinkError.diagnostic ↔ Reported requests cells d := by
  simp only [List.mem_map, mem_errors_link, settle_eq_error, places_requested]
  constructor
  · rintro ⟨e, ⟨a, symbol, hRecord, ⟨hNone, rfl⟩ | ⟨hSome, rfl, hNot⟩⟩, rfl⟩
    · exact .unresolved hRecord hNone
    · obtain ⟨target, hPlace⟩ := Option.ne_none_iff_exists'.mp hSome
      exact .unpatched hRecord hPlace ((not_due_iff hRecord hPlace).mpr hNot)
  · rintro (⟨hRecord, hNone⟩ | ⟨hRecord, hPlace, hNot⟩)
    · exact ⟨_, ⟨_, _, hRecord, .inl ⟨hNone, rfl⟩⟩, rfl⟩
    · exact ⟨_, ⟨_, _, hRecord, .inr ⟨by simp [hPlace], rfl, (not_due_iff hRecord hPlace).mp hNot⟩⟩, rfl⟩

end

/-! ## Linking again -/

theorem link_of_no_records {r : Relocations} (h : ∀ a : Nat, r.unlinked[a]? = none) (cells : List Cell) :
    (r.link cells).1 = { cells := cells } := by
  have hNone : r.unlinked.toList = [] := by
    apply List.eq_nil_iff_forall_not_mem.mpr
    rintro ⟨a, id⟩ hMem
    rw [Std.TreeMap.mem_toList_iff_getElem?_eq_some, h a] at hMem
    cases hMem
  rw [link, hNone]
  rfl

/-- Behind any requests linking is exact, and linking again without a new record changes nothing. Linking adds no error
to a program that words can number. -/
theorem link_exact (requests : List Request) (cells : List Cell) :
    ((after {} requests).link cells).1.Exact requests cells ∧
    (∀ more others, more.flatMap Request.records = [] →
      ((((after {} requests).link cells).2.after more).link others).1 = { cells := others }) ∧
    ∀ statements, (Listing.generate statements).listing.cells.length < 2147483648 →
      ∀ e, .link e ∉ (Listing.generate statements).errors := by
  refine ⟨?_, ?_, fun statements => Listing.link_not_mem_errors⟩
  · exact
      { length := length_link _ cells
        changed := fun a => changed_iff_due
        patched := fun a target hDue => hDue.getElem?_link
        ordered := ordered_errors_link _ cells
        reported := reported_iff }
  · intro more others hNone
    apply link_of_no_records
    intro a
    rw [unlinked_after, recordOf?, hNone]
    exact Std.TreeMap.getElem?_emptyc

/-- The record of the symbol is patched to its last place, that of the integer is not. In `func f() { print(x); } f();`
the call of `f` is patched, although `x` is not defined. -/
theorem link_exact_call :
    let cells : List Cell := [.op .call, .symbol 1, .int 0, .int 0, .op .halt]
    let requests : List Request := [.place 1 3, .scan 0 cells, .await 3 1, .place 1 5]
    let program : List Stmt := [.function ⟨1, 11⟩ "f" [] [.print ⟨5, 10⟩ (.var ⟨7, 8⟩ "x")],
      .expr ⟨11, 14⟩ (.call ⟨11, 14⟩ "f" [])]
    ((after {} requests).link cells).1.Exact requests cells ∧ Due requests cells 1 5 ∧
      [Request.place 1 7].flatMap Request.records = [] ∧
      ((((after {} requests).link cells).2.after [.place 1 7]).link cells).1 = { cells := cells } ∧
      (Listing.generate program).listing.cells.length < 2147483648 ∧
      (Listing.generate program).errors = [.undefinedVariable ⟨7, 8⟩ "x"] ∧
      ∀ e, .link e ∉ (Listing.generate program).errors := by
  intro cells requests program
  obtain ⟨hExact, hAgain, hGenerated⟩ := link_exact requests cells
  have hNone : [Request.place 1 7].flatMap Request.records = [] := rfl
  have hSize : (Listing.generate program).listing.cells.length < 2147483648 := by decide +kernel
  refine ⟨hExact, ⟨1, 1, rfl, rfl, by decide, rfl⟩, hNone, hAgain _ _ hNone, hSize, ?_, hGenerated program hSize⟩
  decide +kernel

end Relocations

end Vee
