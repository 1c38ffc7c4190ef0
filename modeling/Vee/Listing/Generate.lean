import Vee.Functions

/-!
# Code of statements

The main program comes first and ends in a halt; the functions follow in the order of their declaration,
each in a section of its own. A statement in which an error is found has no code, and generation goes on
behind it, so that several errors can be reported.
-/

namespace Vee

set_option autoImplicit false

/-! ## Expressions -/

def UnaryOp.opcode : UnaryOp → Opcode
  | .neg => .neg
  | .not => .not

def BinaryOp.opcodes : BinaryOp → List Opcode
  | .mul => [.mul]
  | .div => [.div]
  | .mod => [.mod]
  | .add => [.add]
  | .sub => [.sub]
  | .eq => [.eq]
  | .ne => [.eq, .not]
  | .lt => [.lt]
  | .le => [.leq]
  | .gt => [.gt]
  | .ge => [.geq]
  | .and => [.and]
  | .or => [.or]

/-- The code that pushes the value of a variable. -/
def Slot.loadCode? : Slot → Option (List Cell)
  | .frame offset => do return [.op .const, .int (← Word.ofInt? offset), .op .load]
  | .global index => do return [.op .const, .int (← Word.ofNat? index), .op .gload]

mutual

/-- The code that pushes the value of an expression. -/
def Expr.code (fs : Functions) (vs : Variables) : Expr → Except CompileError (List Cell)
  | .int _ n => .ok [.op .const, .int n]
  | .var span name =>
    match vs.resolve name with
    | none => .error (.undefinedVariable span name)
    | some slot =>
      match slot.loadCode? with
      | some code => .ok code
      | none => .error (.numberTooLarge span name)
  | .call span name args =>
    match fs.find? name with
    | none => .error (.undefinedFunction span name)
    | some f =>
      if f.arity = args.length then do
        let code ← Expr.argsCode fs vs args
        match Word.ofNat? f.arity, Word.ofNat? f.locals with
        | some arity, some locals =>
          return code ++ [.op .call, .symbol f.symbol, .int arity, .int locals]
        | _, _ => .error (.numberTooLarge span name)
      else .error (.wrongArity span name f.arity)
  | .unary op _ e => do return (← e.code fs vs) ++ [.op op.opcode]
  | .binary op _ l r => do
    let left ← l.code fs vs
    let right ← r.code fs vs
    return left ++ right ++ op.opcodes.map Cell.op

/-- The code that pushes arguments, the last one first. -/
def Expr.argsCode (fs : Functions) (vs : Variables) :
    List Expr → Except CompileError (List Cell)
  | [] => .ok []
  | e :: rest => do
    let later ← Expr.argsCode fs vs rest
    return later ++ (← e.code fs vs)

end

/-! ## Statements -/

/-- What generation keeps from one statement to the next. -/
structure Scope where
  vars : Variables := {}
  errors : List CompileError := []

/-- A step of generation. An error keeps the scope as the failing step left it. -/
abbrev Gen := EStateM CompileError Scope

namespace Gen

def expr (fs : Functions) (e : Expr) : Gen (List Cell) := fun scope =>
  match e.code fs scope.vars with
  | .ok code => .ok code scope
  | .error e => .error e scope

def assign (name : String) : Gen Slot := fun scope =>
  let (slot, vars) := scope.vars.assign name
  .ok slot { scope with vars := vars }

/-- An address as a cell. -/
def address (a : Nat) : Gen Cell :=
  match Word.ofNat? a with
  | some n => pure (.int n)
  | none => throw .programTooLarge

/-- The code that continues at an address, always or on a condition. -/
def jump (target : Nat) (op : Opcode) : Gen (List Cell) := do
  return [.op .const, ← address target, .op op]

end Gen

/-- The code that pops a value into a slot. -/
def Slot.storeCode (span : Span) : Slot → Except CompileError (List Cell)
  | .frame offset =>
    match Word.ofInt? offset with
    | some n => .ok [.op .store, .int n]
    | none => .error (.tooManyLocals span)
  | .global index =>
    match Word.ofNat? index with
    | some n => .ok [.op .gstore, .int n]
    | none => .error (.tooManyGlobals span)

mutual

/-- The code of a statement that will stand at an address. -/
def Stmt.code (fs : Functions) (address : Nat) : Stmt → Gen (List Cell)
  | .assign span name e => do
    let value ← Gen.expr fs e
    let slot ← Gen.assign name
    match slot.storeCode span with
    | .ok store => return value ++ store
    | .error e => throw e
  | .expr _ e => do return (← Gen.expr fs e) ++ [.op .pop]
  | .print _ e => do return (← Gen.expr fs e) ++ [.op .print]
  | .function _ _ _ _ => pure []
  | .ret span value => do
    if (← get).vars.inFunction then
      match value with
      | some e => return (← Gen.expr fs e) ++ [.op .ret]
      | none => return [.op .const, .int (-1), .op .ret]
    else throw (.returnOutsideFunction span)
  | .branch _ condition yes no => do
    let test ← Gen.expr fs condition
    let yesAddress := address + test.length + 3
    let yesCode ← modifyGet (Stmt.blockCode fs yesAddress yes)
    if no.isEmpty then
      let skip ← Gen.jump (yesAddress + yesCode.length) .jmpf
      return test ++ skip ++ yesCode
    else
      let noAddress := yesAddress + yesCode.length + 3
      let noCode ← modifyGet (Stmt.blockCode fs noAddress no)
      let skip ← Gen.jump noAddress .jmpf
      let leave ← Gen.jump (noAddress + noCode.length) .jmp
      return test ++ skip ++ yesCode ++ leave ++ noCode
  | .whileLoop _ condition body => do
    let test ← Gen.expr fs condition
    let bodyAddress := address + test.length + 3
    let bodyCode ← modifyGet (Stmt.blockCode fs bodyAddress body)
    let leave ← Gen.jump (bodyAddress + bodyCode.length + 3) .jmpf
    let again ← Gen.jump address .jmp
    return test ++ leave ++ bodyCode ++ again
  | .forLoop _ init condition step body => do
    let initCode ← Stmt.code fs address init
    let test ← Gen.expr fs condition
    let testAddress := address + initCode.length
    let bodyAddress := testAddress + test.length + 3
    let bodyCode ← modifyGet (Stmt.blockCode fs bodyAddress body)
    let stepCode ← Stmt.code fs (bodyAddress + bodyCode.length) step
    let leave ← Gen.jump (bodyAddress + bodyCode.length + stepCode.length + 3) .jmpf
    let again ← Gen.jump testAddress .jmp
    return initCode ++ test ++ leave ++ bodyCode ++ stepCode ++ again

/-- The code of statements one behind another, and the scope behind them. A statement with an error has
no code. -/
def Stmt.blockCode (fs : Functions) (address : Nat) : List Stmt → Scope → List Cell × Scope
  | [], scope => ([], scope)
  | s :: rest, scope =>
    match Stmt.code fs address s scope with
    | .ok code scope =>
      let (later, scope) := Stmt.blockCode fs (address + code.length) rest scope
      (code ++ later, scope)
    | .error e scope =>
      Stmt.blockCode fs address rest { scope with errors := scope.errors ++ [e] }

end

/-! ## Programs -/

/-- A listing in the making. -/
structure Draft where
  listing : Listing := {}
  relocations : Relocations := {}
  scope : Scope := {}

namespace Draft

def place (d : Draft) (cells : List Cell) : Draft :=
  { d with
    relocations := d.relocations.scan d.listing.cells.length cells
    listing := d.listing.append cells }

/-- The code of a block at the end of the listing, and the scope behind it. -/
def block (d : Draft) (fs : Functions) (body : List Stmt) : List Cell × Scope :=
  Stmt.blockCode fs d.listing.cells.length body d.scope

def entry (d : Draft) (fs : Functions) (statements : List Stmt) : Draft :=
  let (code, scope) := d.block fs statements
  place { d with scope := scope } (code ++ [.op .halt])

def declareParam (scope : Scope) (name : String) : Scope :=
  match scope.vars.param name with
  | (some _, vars) => { scope with vars := vars }
  | (none, vars) =>
    { vars := vars, errors := scope.errors ++ [.duplicateParameter name] }

/-- A body that does not end in a return statement returns -1 at its end. -/
def returnCode (body : List Stmt) : List Cell :=
  if body.getLast?.any Stmt.isReturn then [] else [.op .const, .int (-1), .op .ret]

def function (fs : Functions) (d : Draft) (f : Function) : Draft :=
  let entered := { d.scope with vars := d.scope.vars.enter }
  let opened : Draft :=
    { listing := d.listing.addSection f.name
      relocations := d.relocations.place f.symbol d.listing.cells.length
      scope := f.params.foldl declareParam entered }
  let (code, scope) := opened.block fs f.body
  place { opened with scope := { scope with vars := scope.vars.leave.2 } }
    (code ++ returnCode f.body)

end Draft

/-- The outcome of generation: the listing is good if there are no errors. -/
structure Generated where
  listing : Listing
  errors : List CompileError
  patches : List Patch

/-- Code for a program, linked. -/
def Listing.generate (statements : List Stmt) : Generated :=
  let (fs, errors) := Functions.declareBlock {} statements
  let start : Draft := { scope := { errors := errors } }
  let draft := fs.list.foldl (Draft.function fs) (start.entry fs statements)
  let (linked, _) := draft.relocations.link draft.listing.cells
  { listing := { draft.listing with cells := linked.cells }
    errors := draft.scope.errors ++ linked.errors.map .link
    patches := linked.patches }

/-- The listing of a program, or all errors found in it. -/
def Listing.ofStatements (statements : List Stmt) : Except (List CompileError) Listing :=
  let generated := Listing.generate statements
  if generated.errors.isEmpty then .ok generated.listing else .error generated.errors

end Vee
