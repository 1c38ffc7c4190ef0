import Vee.Proofs.Code.Blame
import Vee.Proofs.Code.Generation

/-! # Which errors are reported

An error ends the code of its statement, and generation goes on behind it. So a call of a function that is not declared
may go unreported, but only for an error at something whose code comes before the call's: in its own expression, in its
statement, or in the head of a statement around it. Blocks and functions hide nothing from each other.
-/

namespace Vee

set_option autoImplicit false

open Effect CompileError

/-! ## Calls and what comes before them -/

/-- A call in an expression, with the phrases whose code is made before its own. The function of a call is looked up
before its arguments have code, and the arguments have theirs from the last to the first. -/
inductive Expr.Calls (span : Span) (name : String) : Expr → List Phrase → Prop where
  | own (args : List Expr) : Calls span name (.call span name args) []
  | arg {outer : Span} {f : String} {first later : List Expr} {e : Expr} {before : List Phrase}
      (h : Calls span name e before) : Calls span name (.call outer f (first ++ e :: later))
        (.expr (.call outer f (first ++ e :: later)) :: (Expr.walkList later ++ before))
  | unary {op : UnaryOp} {outer : Span} {e : Expr} {before : List Phrase} (h : Calls span name e before) :
      Calls span name (.unary op outer e) before
  | left {op : BinaryOp} {outer : Span} {l r : Expr} {before : List Phrase} (h : Calls span name l before) :
      Calls span name (.binary op outer l r) before
  | right {op : BinaryOp} {outer : Span} {l r : Expr} {before : List Phrase} (h : Calls span name r before) :
      Calls span name (.binary op outer l r) (l.walk ++ before)

/-- A call in a statement. Code in a block comes behind the head of the statement, and code in the step of a loop behind
the head too. -/
inductive Stmt.Calls (span : Span) (name : String) : Stmt → List Phrase → Prop where
  | assign {outer : Span} {x : String} {e : Expr} {before : List Phrase} (h : e.Calls span name before) :
      Calls span name (.assign outer x e) before
  | expr {outer : Span} {e : Expr} {before : List Phrase} (h : e.Calls span name before) :
      Calls span name (.expr outer e) before
  | print {outer : Span} {e : Expr} {before : List Phrase} (h : e.Calls span name before) :
      Calls span name (.print outer e) before
  | ret {outer : Span} {e : Expr} {before : List Phrase} (h : e.Calls span name before) :
      Calls span name (.ret outer (some e)) (.stmt (.ret outer (some e)) :: before)
  | branchTest {outer : Span} {c : Expr} {yes no : List Stmt} {before : List Phrase} (h : c.Calls span name before) :
      Calls span name (.branch outer c yes no) before
  | yes {outer : Span} {c : Expr} {yes no : List Stmt} {s : Stmt} {before : List Phrase} (hMem : s ∈ yes)
      (h : Calls span name s before) : Calls span name (.branch outer c yes no) (c.walk ++ before)
  | no {outer : Span} {c : Expr} {yes no : List Stmt} {s : Stmt} {before : List Phrase} (hMem : s ∈ no)
      (h : Calls span name s before) : Calls span name (.branch outer c yes no) (c.walk ++ before)
  | whileTest {outer : Span} {c : Expr} {body : List Stmt} {before : List Phrase} (h : c.Calls span name before) :
      Calls span name (.whileLoop outer c body) before
  | whileBody {outer : Span} {c : Expr} {body : List Stmt} {s : Stmt} {before : List Phrase} (hMem : s ∈ body)
      (h : Calls span name s before) : Calls span name (.whileLoop outer c body) (c.walk ++ before)
  | init {outer : Span} {init step : Stmt} {c : Expr} {body : List Stmt} {before : List Phrase}
      (h : Calls span name init before) : Calls span name (.forLoop outer init c step body) before
  | forTest {outer : Span} {init step : Stmt} {c : Expr} {body : List Stmt} {before : List Phrase}
      (h : c.Calls span name before) : Calls span name (.forLoop outer init c step body) (init.walk ++ before)
  | forBody {outer : Span} {init step : Stmt} {c : Expr} {body : List Stmt} {s : Stmt} {before : List Phrase}
      (hMem : s ∈ body) (h : Calls span name s before) :
      Calls span name (.forLoop outer init c step body) (init.walk ++ (c.walk ++ before))
  | step {outer : Span} {init step : Stmt} {c : Expr} {body : List Stmt} {before : List Phrase}
      (h : Calls span name step before) :
      Calls span name (.forLoop outer init c step body) (init.walk ++ (c.walk ++ before))

section

variable {span : Span} {name : String} {args : List Expr}

mutual

theorem Expr.exists_calls {e : Expr} (h : .expr (.call span name args) ∈ e.walk) :
    ∃ before, e.Calls span name before := by
  cases e with
  | int s n => simp [walk] at h
  | var s x => simp [walk] at h
  | call s f es =>
    rw [walk] at h
    rcases List.mem_append.mp h with hArgs | hOwn
    · obtain ⟨first, e, later, rfl, before, hCalls⟩ := Expr.exists_calls_args hArgs
      exact ⟨_, .arg hCalls⟩
    · cases List.mem_singleton.mp hOwn
      exact ⟨[], .own args⟩
  | unary op s a =>
    rw [walk] at h
    obtain ⟨before, hCalls⟩ := Expr.exists_calls ((List.mem_append.mp h).resolve_right (by simp))
    exact ⟨before, .unary hCalls⟩
  | binary op s l r =>
    rw [walk] at h
    rcases List.mem_append.mp ((List.mem_append.mp h).resolve_right (by simp)) with hLeft | hRight
    · obtain ⟨before, hCalls⟩ := Expr.exists_calls hLeft
      exact ⟨before, .left hCalls⟩
    · obtain ⟨before, hCalls⟩ := Expr.exists_calls hRight
      exact ⟨_, .right hCalls⟩

theorem Expr.exists_calls_args {es : List Expr} (h : .expr (.call span name args) ∈ walkList es) :
    ∃ first e later, es = first ++ e :: later ∧ ∃ before, e.Calls span name before := by
  cases es with
  | nil => cases h
  | cons e rest =>
    rw [walkList] at h
    rcases List.mem_append.mp h with hFirst | hRest
    · exact ⟨[], e, rest, rfl, Expr.exists_calls hFirst⟩
    · obtain ⟨first, d, later, rfl, hCalls⟩ := Expr.exists_calls_args hRest
      exact ⟨e :: first, d, later, rfl, hCalls⟩

end

mutual

/-- No call of a statement is left out. -/
theorem Stmt.exists_calls {s : Stmt} (h : .expr (.call span name args) ∈ s.walk) :
    ∃ before, s.Calls span name before := by
  cases s with
  | assign outer x e =>
    rw [walk] at h
    obtain ⟨before, hCalls⟩ := Expr.exists_calls ((List.mem_append.mp h).resolve_right (by simp))
    exact ⟨before, .assign hCalls⟩
  | expr outer e =>
    rw [walk] at h
    obtain ⟨before, hCalls⟩ := Expr.exists_calls ((List.mem_append.mp h).resolve_right (by simp))
    exact ⟨before, .expr hCalls⟩
  | print outer e =>
    rw [walk] at h
    obtain ⟨before, hCalls⟩ := Expr.exists_calls ((List.mem_append.mp h).resolve_right (by simp))
    exact ⟨before, .print hCalls⟩
  | function outer f params body => simp [walk] at h
  | ret outer value =>
    cases value with
    | none => simp [walk] at h
    | some e =>
      rw [walk] at h
      obtain ⟨before, hCalls⟩ := Expr.exists_calls ((List.mem_append.mp h).resolve_right (by simp))
      exact ⟨_, .ret hCalls⟩
  | branch outer c yes no =>
    rw [walk] at h
    have hParts := (List.mem_append.mp h).resolve_right (by simp)
    rcases List.mem_append.mp hParts with hHead | hNo
    · rcases List.mem_append.mp hHead with hTest | hYes
      · obtain ⟨before, hCalls⟩ := Expr.exists_calls hTest
        exact ⟨before, .branchTest hCalls⟩
      · obtain ⟨s, hMem, before, hCalls⟩ := Stmt.exists_calls_block hYes
        exact ⟨_, .yes hMem hCalls⟩
    · obtain ⟨s, hMem, before, hCalls⟩ := Stmt.exists_calls_block hNo
      exact ⟨_, .no hMem hCalls⟩
  | whileLoop outer c body =>
    rw [walk] at h
    have hParts := (List.mem_append.mp h).resolve_right (by simp)
    rcases List.mem_append.mp hParts with hTest | hBody
    · obtain ⟨before, hCalls⟩ := Expr.exists_calls hTest
      exact ⟨before, .whileTest hCalls⟩
    · obtain ⟨s, hMem, before, hCalls⟩ := Stmt.exists_calls_block hBody
      exact ⟨_, .whileBody hMem hCalls⟩
  | forLoop outer init c step body =>
    rw [walk] at h
    have hParts := (List.mem_append.mp h).resolve_right (by simp)
    rcases List.mem_append.mp hParts with hHead | hBody
    · rcases List.mem_append.mp hHead with hHead | hStep
      · rcases List.mem_append.mp hHead with hInit | hTest
        · obtain ⟨before, hCalls⟩ := Stmt.exists_calls hInit
          exact ⟨before, .init hCalls⟩
        · obtain ⟨before, hCalls⟩ := Expr.exists_calls hTest
          exact ⟨_, .forTest hCalls⟩
      · obtain ⟨before, hCalls⟩ := Stmt.exists_calls hStep
        exact ⟨_, .step hCalls⟩
    · obtain ⟨s, hMem, before, hCalls⟩ := Stmt.exists_calls_block hBody
      exact ⟨_, .forBody hMem hCalls⟩

theorem Stmt.exists_calls_block {body : List Stmt} (h : .expr (.call span name args) ∈ walkList body) :
    ∃ s ∈ body, ∃ before, s.Calls span name before := by
  cases body with
  | nil => cases h
  | cons s rest =>
    rw [walkList] at h
    rcases List.mem_append.mp h with hFirst | hRest
    · exact ⟨s, List.mem_cons_self, Stmt.exists_calls hFirst⟩
    · obtain ⟨t, hMem, hCalls⟩ := Stmt.exists_calls_block hRest
      exact ⟨t, List.mem_cons_of_mem _ hMem, hCalls⟩

end

end

/-! ## Calls are accounted for -/

/-- The error of an undeclared call, or one raised before it. -/
def CompileError.Accounts (span : Span) (name : String) (before : List Phrase) (e : CompileError) : Prop :=
  e = .undefinedFunction span name ∨ e.RaisedIn before

section

variable {fs : Functions} {v : Variables} {span : Span} {name : String} {before more : List Phrase}

theorem CompileError.Accounts.mono {e : CompileError} (h : e.Accounts span name before) (hSub : before ⊆ more) :
    e.Accounts span name more := h.imp_right fun hRaised => hRaised.mono hSub

/-- An expression with an undeclared call has no code, for this call or for what comes before it. -/
theorem Expr.Calls.exists_error {e : Expr} (h : e.Calls span name before) (hFind : fs.find? name = none) :
    ∃ error, e.code fs v = .error error ∧ error.Accounts span name before := by
  induction h with
  | own args =>
    refine ⟨_, ?_, .inl rfl⟩
    simp only [Expr.code, hFind]
  | @arg outer f first later e before _ ih =>
    rw [Expr.code]
    split
    · exact ⟨_, rfl, .inr ((RaisedAt.undefinedFunction outer f _).raisedIn List.mem_cons_self)⟩
    · split
      · -- The arguments behind this one come first.
        have hArgs : ∃ error, Expr.argsCode fs v (e :: later) = .error error ∧
            error.Accounts span name (Expr.walkList later ++ before) := by
          rw [Expr.argsCode]
          cases hLater : Expr.argsCode fs v later with
          | error error =>
            exact ⟨error, rfl, .inr ((Expr.raisedIn_of_argsCode hLater).mono (List.subset_append_left _ _))⟩
          | ok code =>
            obtain ⟨error, hCode, hAccounts⟩ := ih
            refine ⟨error, ?_, hAccounts.mono (List.subset_append_right _ _)⟩
            change (e.code fs v >>= _) = _
            rw [hCode]
            rfl
        obtain ⟨error, hCode, hAccounts⟩ := hArgs
        refine ⟨error, ?_, hAccounts.mono (List.subset_cons_self _ _)⟩
        rw [Expr.argsCode_append_error hCode first]
        rfl
      · exact ⟨_, rfl, .inr ((RaisedAt.wrongArity outer f _ _).raisedIn List.mem_cons_self)⟩
  | unary _ ih =>
    obtain ⟨error, hCode, hAccounts⟩ := ih
    refine ⟨error, ?_, hAccounts⟩
    rw [Expr.code, hCode]
    rfl
  | left _ ih =>
    obtain ⟨error, hCode, hAccounts⟩ := ih
    refine ⟨error, ?_, hAccounts⟩
    rw [Expr.code, hCode]
    rfl
  | @right op outer l r before _ ih =>
    rw [Expr.code]
    cases hLeft : l.code fs v with
    | error error => exact ⟨error, rfl, .inr ((Expr.raisedIn_of_code hLeft).mono (List.subset_append_left _ _))⟩
    | ok left =>
      obtain ⟨error, hCode, hAccounts⟩ := ih
      refine ⟨error, ?_, hAccounts.mono (List.subset_append_right _ _)⟩
      change (r.code fs v >>= _) = _
      rw [hCode]
      rfl

end

/-- Some error accounts for a call. -/
def CompileError.Account (span : Span) (name : String) (before : List Phrase) (errors : List CompileError) : Prop :=
  ∃ e ∈ errors, e.Accounts span name before

section

open Gen

variable {α β : Type} {x : Gen α} {f : α → Gen β} {scope : Scope} {fs : Functions} {span : Span} {name : String}
    {before first : List Phrase}

theorem CompileError.Account.mono {errors more : List CompileError} (h : Account span name before errors)
    (hSub : errors ⊆ more) : Account span name before more := by
  obtain ⟨e, hMem, hAccounts⟩ := h
  exact ⟨e, hSub hMem, hAccounts⟩

theorem Gen.account_first (h : Account span name before (found (x scope)))
    (hRest : ∀ a, Appends Scope.errors (f a)) : Account span name before (found ((x >>= f) scope)) :=
  h.mono (found_subset_bind hRest)

/-- A step that fails accounts for what comes behind it. -/
theorem Gen.account_behind (hFirst : Fails first x)
    (h : ∀ a later, Account span name before (found (f a later))) :
    Account span name (first ++ before) (found ((x >>= f) scope)) := by
  cases hResult : x scope with
  | ok a later =>
    rw [bind_of_ok hResult]
    obtain ⟨e, hMem, hAccounts⟩ := h a later
    exact ⟨e, hMem, hAccounts.mono (List.subset_append_right _ _)⟩
  | error e later =>
    rw [bind_of_error hResult]
    refine ⟨e, List.mem_append_right _ List.mem_cons_self, .inr ?_⟩
    exact (hFirst.raised scope hResult).mono (List.subset_append_left _ _)

theorem Gen.account_get {f : Scope → Gen β} (h : Account span name before (found (f scope scope))) :
    Account span name before (found ((get >>= f) scope)) := h

theorem Gen.account_modifyGet {g : Scope → α × Scope} (h : Account span name before (g scope).2.errors)
    (hRest : ∀ a, Appends Scope.errors (f a)) : Account span name before (found ((modifyGet g >>= f) scope)) :=
  h.mono (List.Subset.trans (hRest _ _).subset (subset_found _))

theorem Gen.account_behind_modifyGet {g : Scope → α × Scope}
    (h : ∀ a later, Account span name before (found (f a later))) :
    Account span name before (found ((modifyGet g >>= f) scope)) := h _ _

theorem Gen.account_expr {f : List Cell → Gen β} {e : Expr} (h : e.Calls span name before)
    (hFind : fs.find? name = none) : Account span name before (found ((expr fs e >>= f) scope)) := by
  obtain ⟨error, hCode, hAccounts⟩ := h.exists_error (v := scope.vars) hFind
  have hResult : expr fs e scope = .error error scope := by
    simp only [expr, hCode]
  rw [bind_of_error hResult]
  exact ⟨error, List.mem_append_right _ List.mem_cons_self, hAccounts⟩

theorem Stmt.account_block {s : Stmt} {body : List Stmt} (hMem : s ∈ body)
    (h : ∀ a scope, Account span name before (found (s.code fs a scope))) (a : Nat) (scope : Scope) :
    Account span name before (Stmt.blockCode fs a body scope).2.errors := by
  induction body generalizing a scope with
  | nil => cases hMem
  | cons t rest ih =>
    rw [Stmt.blockCode]
    rcases List.mem_cons.mp hMem with rfl | hMem
    · have hOwn := h a scope
      cases hCode : Stmt.code fs a s scope with
      | ok code later =>
        rw [hCode] at hOwn
        exact hOwn.mono (Stmt.errors_blockCode _ rest later).subset
      | error e later =>
        rw [hCode] at hOwn
        exact hOwn.mono (Stmt.errors_blockCode a rest { later with errors := later.errors ++ [e] }).subset
    · cases hCode : Stmt.code fs a t scope with
      | ok code later => exact ih hMem _ later
      | error e later => exact ih hMem a _

theorem Stmt.Calls.account {s : Stmt} (h : s.Calls span name before) (hFind : fs.find? name = none) (a : Nat)
    (scope : Scope) : Account span name before (found (s.code fs a scope)) := by
  -- A step in front of the call fails, which accounts for the call, or goes on; a step behind it keeps what is found.
  induction h generalizing a scope with
  | assign h =>
    rw [Stmt.code]
    exact account_expr h hFind
  | expr h =>
    rw [Stmt.code]
    exact account_expr h hFind
  | print h =>
    rw [Stmt.code]
    exact account_expr h hFind
  | @ret outer e before h =>
    rw [Stmt.code]
    refine account_get ?_
    split
    · obtain ⟨error, hMem, hAccounts⟩ := account_expr h hFind
      exact ⟨error, hMem, hAccounts.mono (List.subset_cons_self _ _)⟩
    · refine ⟨_, List.mem_append_right _ List.mem_cons_self, .inr ?_⟩
      exact (RaisedAt.returnOutsideFunction outer (some e)).raisedIn List.mem_cons_self
  | branchTest h =>
    rw [Stmt.code]
    exact account_expr h hFind
  | @yes outer c yes no s before hMem _ ih =>
    rw [Stmt.code]
    refine account_behind (fails_expr c) fun test later => ?_
    refine account_modifyGet (Stmt.account_block hMem ih _ later) fun yesCode => ?_
    split
    · exact (Gen.appends_jump _ _).bind fun _ => appends_pure _
    · refine (appends_modifyGet fun scope => Stmt.errors_blockCode _ no scope).bind fun noCode => ?_
      exact Gen.appends_jumps
  | @no outer c yes no s before hMem _ ih =>
    rw [Stmt.code]
    refine account_behind (fails_expr c) fun test later => ?_
    refine account_behind_modifyGet fun yesCode later => ?_
    rw [if_neg (by simpa using List.ne_nil_of_mem hMem)]
    refine account_modifyGet (Stmt.account_block hMem ih _ later) fun noCode => ?_
    exact Gen.appends_jumps
  | whileTest h =>
    rw [Stmt.code]
    exact account_expr h hFind
  | @whileBody outer c body s before hMem _ ih =>
    rw [Stmt.code]
    refine account_behind (fails_expr c) fun test later => ?_
    refine account_modifyGet (Stmt.account_block hMem ih _ later) fun code => ?_
    exact Gen.appends_jumps
  | @init outer init step c body before _ ih =>
    rw [Stmt.code]
    refine account_first (ih a scope) fun initCode => (Gen.appends_expr c).bind fun test => ?_
    refine (appends_modifyGet fun scope => Stmt.errors_blockCode _ body scope).bind fun code => ?_
    refine (Stmt.appends_code _ step).bind fun stepCode => ?_
    exact Gen.appends_jumps
  | @forTest outer init step c body before h =>
    rw [Stmt.code]
    exact account_behind (Stmt.fails_code init a) fun initCode later => account_expr h hFind
  | @forBody outer init step c body s before hMem _ ih =>
    rw [Stmt.code]
    refine account_behind (Stmt.fails_code init a) fun initCode later => ?_
    refine account_behind (fails_expr c) fun test later => ?_
    refine account_modifyGet (Stmt.account_block hMem ih _ later) fun code => ?_
    refine (Stmt.appends_code _ step).bind fun stepCode => ?_
    exact Gen.appends_jumps
  | @step outer init step c body before _ ih =>
    rw [Stmt.code]
    refine account_behind (Stmt.fails_code init a) fun initCode later => ?_
    refine account_behind (fails_expr c) fun test later => ?_
    refine account_behind_modifyGet fun code later => ?_
    refine account_first (ih _ later) fun stepCode => ?_
    exact Gen.appends_jumps

end

/-! ## Declarations -/

/-- Takes a declaration unless its name is taken. -/
def Declaration.adopt (ds : List Declaration) (d : Declaration) : List Declaration :=
  if d.name ∈ ds.map Declaration.name then ds else ds ++ [d]

namespace Declaration

theorem names_adopt (ds : List Declaration) (d : Declaration) :
    (adopt ds d).map name = enlist [] (ds.map name) d.name := by
  by_cases hTaken : d.name ∈ ds.map name
  · rw [adopt, if_pos hTaken, enlist, if_pos (.inr hTaken)]
  · rw [adopt, if_neg hTaken, enlist, if_neg (by simpa using hTaken), List.map_append]
    rfl

theorem names_adoptAll (ds es : List Declaration) :
    (es.foldl adopt ds).map name = (es.map name).foldl (enlist []) (ds.map name) := by
  induction es generalizing ds with
  | nil => rfl
  | cons d es ih => rw [List.foldl_cons, ih, names_adopt, List.map_cons, List.foldl_cons]

theorem prefix_adoptAll (ds es : List Declaration) : ds <+: es.foldl adopt ds := by
  induction es generalizing ds with
  | nil => exact List.prefix_rfl
  | cons d es ih =>
    refine List.IsPrefix.trans ?_ (ih _)
    rw [adopt]
    split
    · exact List.prefix_rfl
    · exact List.prefix_append _ _

/-- The first of a name is adopted. -/
theorem mem_adoptAll {first : List Declaration} {d : Declaration} (h : d.name ∉ first.map name)
    (second : List Declaration) : d ∈ (first ++ d :: second).foldl adopt [] := by
  rw [List.foldl_append, List.foldl_cons]
  have hNew : d.name ∉ (first.foldl adopt []).map name := by
    rw [names_adoptAll, mem_enlistAll]
    simpa using h
  refine (prefix_adoptAll _ second).subset ?_
  rw [adopt, if_neg hNew]
  exact List.mem_append_right _ List.mem_cons_self

end Declaration

namespace Functions

mutual

theorem adopted_declareStmt (fs : Functions) (s : Stmt) :
    (fs.declareStmt s).1.list.map Function.declaration =
      s.declarations.foldl Declaration.adopt (fs.list.map Function.declaration) := by
  cases s with
  | function span name params body =>
    have hNames : (fs.list.map Function.declaration).map Declaration.name = fs.names := by
      rw [List.map_map]
      rfl
    rw [declareStmt, declare, Stmt.declarations, List.foldl_cons, Declaration.adopt, hNames]
    cases hFind : fs.find? name with
    | some f =>
      have hTaken : name ∈ fs.names := by
        by_contra hNot
        rw [find?_eq_none.mpr hNot] at hFind
        cases hFind
      rw [if_pos hTaken]
      exact adopted_declareBlock fs body
    | none =>
      rw [if_neg (find?_eq_none.mp hFind)]
      simp only
      rw [adopted_declareBlock, List.map_append]
      rfl
  | branch span c yes no =>
    rw [declareStmt, Stmt.declarations, List.foldl_append, ← adopted_declareBlock fs yes]
    exact adopted_declareBlock _ no
  | whileLoop span c body => exact adopted_declareBlock fs body
  | forLoop span init c step body => exact adopted_declareBlock fs body
  | assign span x e => rfl
  | expr span e => rfl
  | print span e => rfl
  | ret span value => rfl

theorem adopted_declareBlock (fs : Functions) (body : List Stmt) :
    (fs.declareBlock body).1.list.map Function.declaration =
      (Stmt.blockDeclarations body).foldl Declaration.adopt (fs.list.map Function.declaration) := by
  cases body with
  | nil => rfl
  | cons s rest =>
    rw [declareBlock, Stmt.blockDeclarations, List.foldl_append, ← adopted_declareStmt fs s]
    exact adopted_declareBlock _ rest

end

variable {statements : List Stmt} {name : String}

theorem find?_declared_eq_none (h : name ∉ (Stmt.blockDeclarations statements).map Declaration.name) :
    (declareBlock {} statements).1.find? name = none := by
  rw [find?_eq_none, names_eq (adopted_declareBlock {} statements), Declaration.names_adoptAll, mem_enlistAll]
  simpa using h

theorem exists_declared {first second : List Declaration} {d : Declaration}
    (hSplit : Stmt.blockDeclarations statements = first ++ d :: second) (hFirst : d.name ∉ first.map Declaration.name) :
    ∃ f ∈ (declareBlock {} statements).1.list, f.body = d.body := by
  have hMem : d ∈ (declareBlock {} statements).1.list.map Function.declaration := by
    rw [adopted_declareBlock, hSplit]
    exact Declaration.mem_adoptAll hFirst second
  obtain ⟨f, hFunction, rfl⟩ := List.mem_map.mp hMem
  exact ⟨f, hFunction, rfl⟩

end Functions

/-! ## Programs -/

/-- The bodies that get code: the program itself, and for each name of a function the body of the first. -/
inductive Stmt.GetsCode (statements : List Stmt) : List Stmt → Prop where
  | main : GetsCode statements statements
  | function {first second : List Declaration} {d : Declaration}
      (hSplit : Stmt.blockDeclarations statements = first ++ d :: second)
      (hFirst : d.name ∉ first.map Declaration.name) : GetsCode statements d.body

/-- What is found in the body of a function stays in the draft. -/
theorem Draft.exists_errors_of_mem {fs : Functions} {d : Draft} {f : Function} {rest : List Function}
    (hMem : f ∈ rest) :
    ∃ a scope, (Stmt.blockCode fs a f.body scope).2.errors ⊆ (rest.foldl (function fs) d).scope.errors := by
  induction rest generalizing d with
  | nil => cases hMem
  | cons g rest ih =>
    rcases List.mem_cons.mp hMem with rfl | hMem
    · refine ⟨d.listing.cells.length, (d.opened f).scope, ?_⟩
      change (function fs d f).scope.errors ⊆ _
      exact errors_functions.subset
    · exact ih hMem

theorem Stmt.GetsCode.exists_errors {statements body : List Stmt} (h : GetsCode statements body) :
    ∃ a scope, (Stmt.blockCode (Functions.declareBlock {} statements).1 a body scope).2.errors ⊆
      (Listing.generate statements).errors := by
  -- The errors of a listing are those of its draft, and behind them those of linking.
  have hLinked : ∀ {errors : List CompileError}, errors ⊆ _ → errors ⊆ (Listing.generate statements).errors :=
    fun hDraft => List.Subset.trans hDraft (List.subset_append_left _ _)
  cases h with
  | main =>
    refine ⟨0, { errors := (Functions.declareBlock {} statements).2 }, hLinked ?_⟩
    change (Draft.entry { scope := { errors := (Functions.declareBlock {} statements).2 } } _ _).scope.errors ⊆ _
    exact Draft.errors_functions.subset
  | function hSplit hFirst =>
    obtain ⟨f, hMem, hBody⟩ := Functions.exists_declared hSplit hFirst
    obtain ⟨a, scope, hErrors⟩ := Draft.exists_errors_of_mem hMem
    exact ⟨a, scope, hLinked (hBody ▸ hErrors)⟩

/-- Every call of a function that is declared nowhere is reported, or an error at a phrase that has its code before the
call. -/
theorem Listing.undeclared_calls_reported {statements body : List Stmt} {name : String} (span : Span)
    (hBody : Stmt.GetsCode statements body)
    (hName : name ∉ (Stmt.blockDeclarations statements).map Declaration.name) :
    (∀ args, .expr (.call span name args) ∈ Stmt.walkList body → ∃ s ∈ body, ∃ before, s.Calls span name before) ∧
    ∀ s ∈ body, ∀ before, s.Calls span name before → ∃ errors, Listing.ofStatements statements = .error errors ∧
      (.undefinedFunction span name ∈ errors ∨ ∃ e ∈ errors, ∃ p ∈ before, e.RaisedAt p) := by
  refine ⟨fun args => Stmt.exists_calls_block, fun s hMem before hCall => ?_⟩
  have hFind := Functions.find?_declared_eq_none hName
  obtain ⟨a, scope, hErrors⟩ := hBody.exists_errors
  obtain ⟨e, hReported, hAccounts⟩ := (Stmt.account_block hMem (hCall.account hFind) a scope).mono hErrors
  refine ⟨(Listing.generate statements).errors, ?_, ?_⟩
  · have hSome : ¬ (Listing.generate statements).errors.isEmpty = true := by
      simpa using List.ne_nil_of_mem hReported
    rw [Listing.ofStatements]
    exact if_neg hSome
  · rcases hAccounts with rfl | ⟨p, hBefore, hRaised⟩
    · exact .inl hReported
    · exact .inr ⟨e, hReported, p, hBefore, hRaised⟩

/-- In `func f() { while (1) { g(); } }` only the condition comes before the call. -/
theorem Listing.undeclared_calls_reported_loop :
    ∃ errors, Listing.ofStatements [.function ⟨1, 16⟩ "f" []
        [.whileLoop ⟨6, 15⟩ (.int ⟨7, 8⟩ 1) [.expr ⟨10, 13⟩ (.call ⟨10, 13⟩ "g" [])]]] = .error errors ∧
      (.undefinedFunction ⟨10, 13⟩ "g" ∈ errors ∨
        ∃ e ∈ errors, ∃ p ∈ [Phrase.expr (.int ⟨7, 8⟩ 1)], e.RaisedAt p) :=
  (Listing.undeclared_calls_reported ⟨10, 13⟩ (.function (show _ = [] ++ _ :: [] from rfl) (by decide)) (by decide)).2 _
    List.mem_cons_self _ (.whileBody List.mem_cons_self (.expr (.own [])))

/-- In `print(f() + g());` the first call hides the second. -/
theorem Listing.not_reported_behind_call : ∃ s span name before, s.Calls span name before ∧
    Stmt.GetsCode [s] [s] ∧ name ∉ (Stmt.blockDeclarations [s]).map Declaration.name ∧
    ∀ errors, Listing.ofStatements [s] = .error errors → .undefinedFunction span name ∉ errors := by
  refine ⟨.print ⟨0, 10⟩ (.binary .add ⟨2, 9⟩ (.call ⟨2, 5⟩ "f" []) (.call ⟨6, 9⟩ "g" [])), ⟨6, 9⟩, "g", _,
    .print (.right (.own [])), .main, by decide, ?_⟩
  intro errors h
  change Except.error [undefinedFunction ⟨2, 5⟩ "f"] = _ at h
  cases h
  decide

end Vee
