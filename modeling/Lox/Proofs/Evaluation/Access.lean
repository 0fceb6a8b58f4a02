import Lox.Proofs.Evaluation.Moment

/-!
# Ways to access variables

The evaluation with the access to variables, and to `this`, as a parameter. One way is by the binding table, as the
evaluation does it. Another one is to walk: from the environment that is in scope outwards, to the first frame that has the
name. Where `super` lies is told by the table in either case.
-/

namespace Lox

open Eval

/-- How the variable of a node is read and written. -/
structure Access where
  read : NodeId → Name → Eval Value
  write : NodeId → Name → Value → Eval Unit

namespace Access

/-- By the binding table. -/
def resolved : Access := ⟨lookUp, assign⟩

/-- The nearest variable of that name, whatever the binding table says. -/
def walking : Access where
  read _ name := fun m =>
    match m.store.read m.env name.text with
    | .ok v => .done v m
    | .error fault => .failed (.runtime name.line (.naming fault)) m
  write _ name v := fun m =>
    match m.store.write m.env name.text v with
    | .ok store => .done () { m with store }
    | .error fault => .failed (.runtime name.line (.naming fault)) m

/-! ## One step

The work that an activity nests in itself is left to `next`. -/

section
variable (access : Access) (next : (a : Activity) → Eval a.Result)

def evaluate : Expr → Eval Value
  | .literal value => pure (.ofLiteral value)
  | .unary op line operand => do
    let v : Value ← next (.expr operand)
    ofExcept line (op.applyUnary v)
  | .binary op line left right => do
    let v : Value ← next (.expr left)
    let w : Value ← next (.expr right)
    ofExcept line (op.applyBinary v w)
  | .logical op _ left right => do
    let v : Value ← next (.expr left)
    if op.shortCircuits v then return v else next (.expr right)
  | .group inner => next (.expr inner)
  | .var id name => access.read id name
  | .assign id name value => do
    let v : Value ← next (.expr value)
    access.write id name v
    return v
  | .call callee line arguments => do
    let f : Value ← next (.expr callee)
    let vs : List Value ← next (.exprs arguments)
    next (.call f vs line)
  | .lambda line routine => do
    let closure ← closureHere ⟨"lambda", line⟩ routine
    return .function (← newFunction closure)
  | .get object name => do
    let v : Value ← next (.expr object)
    next (.property v name)
  | .set object name value => do
    let v : Value ← next (.expr object)
    next (.setProperty v name value)
  | .this id line => access.read id ⟨"this", line⟩
  | .super id line method => next (.superProperty id line method)

def evaluateAll : List Expr → Eval (List Value)
  | [] => return []
  | e :: es => do
    let v : Value ← next (.expr e)
    let vs : List Value ← next (.exprs es)
    return v :: vs

def setProperty : (object : Value) → Name → (value : Expr) → Eval Value
  | .object i, name, value => do
    let v : Value ← next (.expr value)
    setField i name.text v
    return v
  | _, name, _ => fail name.line .fieldOfNonInstance

def property : (object : Value) → Name → Eval Value
  | .object i, name => do
    let found ← field? i name.text
    found.elim
      ((i.cls.method? name.text).elim (fail name.line (.undefinedProperty name.text)) fun f =>
        next (.methodOf f.closure i name.line))
      pure
  | .klass c, name =>
    (c.static? name.text).elim (fail name.line (.undefinedProperty name.text)) fun f =>
      if f.closure.isGetter then next (.enter f.closure [] name.line) else return .function f
  | _, name => fail name.line .propertyOfNonInstance

def superProperty (id : NodeId) (line : Nat) (method : Name) : Eval Value := do
  let c ← superClass id line
  let i ← superReceiver id line
  (c.method? method.text).elim (fail method.line (.undefinedProperty method.text)) fun f =>
    next (.methodOf f.closure i method.line)

def methodOf (method : Closure) (receiver : Instance) (line : Nat) : Eval Value := do
  let bound ← bindThis method receiver
  if bound.isGetter then next (.enter bound [] line)
  else return .bound { serial := ← freshSerial, receiver, method := bound }

def call (callee : Value) (arguments : List Value) (line : Nat) : Eval Value :=
  callee.callee?.elim (fail line .notCallable) fun f =>
    if arguments.length = f.arity then next (.apply f arguments line)
    else fail line (.wrongArity f.arity arguments.length)

def apply : Callee → (arguments : List Value) → (line : Nat) → Eval Value
  | .native fn, arguments, line => callNative fn arguments line
  | .closure c, arguments, line => next (.enter c arguments line)
  | .construct c, arguments, line => do
    let i ← newInstance c
    c.initializer?.elim (pure (.object i)) fun f => do
      let bound ← bindThis f.closure i
      let _ ← next (.enter bound arguments line)
      return .object i

def runBody (c : Closure) (arguments : List Value) : Eval Value := do
  let env ← newFrame (argumentFrame c.routine.params arguments) c.env
  let flow : Flow ← within env (next (.stmts c.routine.body))
  if c.isInitializer then receiverOf c else return flow.result

def execute : Stmt → Eval Flow
  | .expr e => do
    let _ ← next (.expr e)
    return .completed
  | .print e => do
    let v : Value ← next (.expr e)
    writeLine v.text .output
    return .completed
  | .varDecl name none => do
    define name .nil
    return .completed
  | .varDecl name (some e) => do
    let v : Value ← next (.expr e)
    define name v
    return .completed
  | .block body => do
    let env ← newFrame .empty (← Run.read Machine.env)
    within env (next (.stmts body))
  | .branch condition thenBranch none => do
    let v : Value ← next (.expr condition)
    if v.isTruthy then next (.stmt thenBranch) else return .completed
  | .branch condition thenBranch (some elseBranch) => do
    let v : Value ← next (.expr condition)
    if v.isTruthy then next (.stmt thenBranch) else next (.stmt elseBranch)
  | .loop condition body => next (.loop condition body)
  | .funDecl name routine => do
    let closure ← closureHere name routine
    define name (.function (← newFunction closure))
    return .completed
  | .returns _ _ none => return .returned .nil
  | .returns _ _ (some e) => do
    let v : Value ← next (.expr e)
    return .returned v
  | .breaks _ => return .broke
  | .classDecl name superclass methods statics => do
    let parent : Option Class ← next (.superclass name superclass)
    define name .nil
    let c ← newClass name parent methods statics
    overwrite name (.klass c)
    return .completed

def evaluateSuperclass : Option Reference → Eval (Option Class)
  | none => return none
  | some ref => do
    match ← access.read ref.id ref.name with
    | .klass c => return some c
    | _ => fail ref.name.line .superclassNotClass

/-- What comes after a statement. -/
def goOn (sts : List Stmt) : Flow → Eval Flow
  | .completed => next (.stmts sts)
  | .broke => return .broke
  | .returned v => return .returned v

def executeAll : List Stmt → Eval Flow
  | [] => return .completed
  | st :: sts => do
    let flow : Flow ← next (.stmt st)
    goOn next sts flow

/-- What comes after the body of a loop. -/
def turnAround (condition : Expr) (body : Stmt) : Flow → Eval Flow
  | .completed => next (.loop condition body)
  | .broke => return .completed
  | .returned v => return .returned v

def repeatWhile (condition : Expr) (body : Stmt) : Eval Flow := do
  let v : Value ← next (.expr condition)
  if v.isTruthy then
    let flow : Flow ← next (.stmt body)
    turnAround next condition body flow
  else return .completed

end

end Access

namespace Activity

def step (access : Access) (next : (a : Activity) → Eval a.Result) : (a : Activity) → Eval a.Result
  | expr e => access.evaluate next e
  | exprs es => Access.evaluateAll next es
  | setProperty object name value => Access.setProperty next object name value
  | property object name => Access.property next object name
  | superProperty id line method => Access.superProperty next id line method
  | methodOf method receiver line => Access.methodOf next method receiver line
  | call callee arguments line => Access.call next callee arguments line
  | apply callee arguments line => Access.apply next callee arguments line
  | enter c arguments line => asCall line (next (.runBody c arguments))
  | runBody c arguments => Access.runBody next c arguments
  | stmt st => Access.execute next st
  | superclass _ ref => access.evaluateSuperclass ref
  | stmts sts => Access.executeAll next sts
  | loop condition body => Access.repeatWhile next condition body

/-- The evaluation with that access to variables. -/
def runBy (access : Access) : (fuel : Nat) → (a : Activity) → Eval a.Result
  | 0, _ => Run.exhausted
  | fuel + 1, a => a.step access (runBy access fuel)

end Activity

namespace Eval

def executeEachBy (access : Access) (fuel : Nat) : List Stmt → Eval Unit
  | [] => return ()
  | st :: sts => do
    let _ ← (Activity.stmt st).runBy access fuel
    executeEachBy access fuel sts

def interpretBy (access : Access) (fuel : Nat) (program : List Stmt) (table : BindingTable) : Eval Unit := do
  Run.update fun m => { m with bindings := m.bindings.merge table }
  flushing (executeEachBy access fuel program)

end Eval

end Lox
