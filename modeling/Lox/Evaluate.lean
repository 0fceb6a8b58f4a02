import Lox.Machine

/-!
# Evaluation

Expressions give values, and statements end in a flow: they complete, return, or break out of a
loop. Operands are evaluated from left to right, and every step of the way spends fuel: a nested
step, and one more turn of a loop.
-/

namespace Lox

/-- The frame of a call. -/
def argumentFrame (params : List Name) (arguments : List Value) : Frame :=
  (params.zip arguments).foldl (fun frame (param, v) => frame.insert param.text v) .empty

/-- What a call gives when its body has ended. -/
def Flow.result : Flow → Value
  | .returned v => v
  | .completed => .nil
  | .broke => .nil

namespace Eval

/-- The superclass has to be a class. -/
def evaluateSuperclass : (fuel : Nat) → Option Reference → Eval (Option Class)
  | 0, _ => Run.exhausted
  | _ + 1, none => return none
  | _ + 1, some ref => do
    match ← lookUp ref.id ref.name with
    | .klass c => return some c
    | _ => fail ref.name.line .superclassNotClass

mutual

def evaluate : (fuel : Nat) → Expr → Eval Value
  | 0, _ => Run.exhausted
  | fuel + 1, e =>
    match e with
    | .literal value => pure (.ofLiteral value)
    | .unary op line operand => do
      let v ← evaluate fuel operand
      ofExcept line (op.applyUnary v)
    | .binary op line left right => do
      let v ← evaluate fuel left
      let w ← evaluate fuel right
      ofExcept line (op.applyBinary v w)
    | .logical op _ left right => do
      let v ← evaluate fuel left
      if op.shortCircuits v then return v else evaluate fuel right
    | .group inner => evaluate fuel inner
    | .var id name => lookUp id name
    | .assign id name value => do
      let v ← evaluate fuel value
      assign id name v
      return v
    | .call callee line arguments => do
      let f ← evaluate fuel callee
      let vs ← evaluateAll fuel arguments
      call fuel f vs line
    | .lambda line routine => do
      let closure ← closureHere ⟨"lambda", line⟩ routine
      return .function (← newFunction closure)
    | .get object name => do
      let v ← evaluate fuel object
      property fuel v name
    | .set object name value => do
      let v ← evaluate fuel object
      setProperty fuel v name value
    | .this id line => lookUp id ⟨"this", line⟩
    | .super id line method => superProperty fuel id line method
termination_by structural n => n

def evaluateAll : (fuel : Nat) → List Expr → Eval (List Value)
  | 0, _ => Run.exhausted
  | _ + 1, [] => return []
  | fuel + 1, e :: es => do
    let v ← evaluate fuel e
    let vs ← evaluateAll fuel es
    return v :: vs
termination_by structural n => n

/-- Assigns a field, of an instance only. -/
def setProperty : (fuel : Nat) → (object : Value) → Name → (value : Expr) → Eval Value
  | 0, _, _, _ => Run.exhausted
  | fuel + 1, .object i, name, value => do
    let v ← evaluate fuel value
    setField i name.text v
    return v
  | _ + 1, _, name, _ => fail name.line .fieldOfNonInstance
termination_by structural n => n

/-- A field hides a method. A class has its static methods as properties. -/
def property : (fuel : Nat) → (object : Value) → Name → Eval Value
  | 0, _, _ => Run.exhausted
  | fuel + 1, .object i, name => do
    match ← field? i name.text with
    | some v => return v
    | none =>
      match i.cls.method? name.text with
      | some f => methodOf fuel f.closure i name.line
      | none => fail name.line (.undefinedProperty name.text)
  | fuel + 1, .klass c, name =>
    match c.static? name.text with
    | some f => if f.closure.isGetter then enter fuel f.closure [] name.line else return .function f
    | none => fail name.line (.undefinedProperty name.text)
  | _ + 1, _, name => fail name.line .propertyOfNonInstance
termination_by structural n => n

/-- The method of the superclass, bound to the current instance. -/
def superProperty : (fuel : Nat) → (id : NodeId) → (line : Nat) → (method : Name) → Eval Value
  | 0, _, _, _ => Run.exhausted
  | fuel + 1, id, line, method => do
    let c ← superClass id line
    let i ← superReceiver id line
    match c.method? method.text with
    | some f => methodOf fuel f.closure i method.line
    | none => fail method.line (.undefinedProperty method.text)
termination_by structural n => n

/-- Binds a method to an instance. A getter runs at once. -/
def methodOf : (fuel : Nat) → (method : Closure) → (receiver : Instance) → (line : Nat) → Eval Value
  | 0, _, _, _ => Run.exhausted
  | fuel + 1, method, receiver, line => do
    let bound ← bindThis method receiver
    if bound.isGetter then enter fuel bound [] line
    else return .bound { serial := ← freshSerial, receiver, method := bound }
termination_by structural n => n

/-- Calls a value. The number of arguments is checked before anything runs. -/
def call : (fuel : Nat) → (callee : Value) → (arguments : List Value) → (line : Nat) → Eval Value
  | 0, _, _, _ => Run.exhausted
  | fuel + 1, callee, arguments, line =>
    match callee.callee? with
    | none => fail line .notCallable
    | some f =>
      if arguments.length = f.arity then apply fuel f arguments line
      else fail line (.wrongArity f.arity arguments.length)
termination_by structural n => n

def apply : (fuel : Nat) → Callee → (arguments : List Value) → (line : Nat) → Eval Value
  | 0, _, _, _ => Run.exhausted
  | _ + 1, .native fn, arguments, line => callNative fn arguments line
  | fuel + 1, .closure c, arguments, line => enter fuel c arguments line
  | fuel + 1, .construct c, arguments, line => do
    let i ← newInstance c
    match c.initializer? with
    | none => return .object i
    | some f => do
      let bound ← bindThis f.closure i
      let _ ← enter fuel bound arguments line
      return .object i
termination_by structural n => n

/-- One more call. -/
def enter : (fuel : Nat) → Closure → (arguments : List Value) → (line : Nat) → Eval Value
  | 0, _, _, _ => Run.exhausted
  | fuel + 1, c, arguments, line => asCall line (runBody fuel c arguments)
termination_by structural n => n

/-- Runs the body in a frame with the arguments, inside the environment of the declaration. -/
def runBody : (fuel : Nat) → Closure → (arguments : List Value) → Eval Value
  | 0, _, _ => Run.exhausted
  | fuel + 1, c, arguments => do
    let env ← newFrame (argumentFrame c.routine.params arguments) c.env
    let flow ← within env (executeAll fuel c.routine.body)
    if c.isInitializer then receiverOf c else return flow.result
termination_by structural n => n

def execute : (fuel : Nat) → Stmt → Eval Flow
  | 0, _ => Run.exhausted
  | fuel + 1, st =>
    match st with
    | .expr e => do
      let _ ← evaluate fuel e
      return .completed
    | .print e => do
      let v ← evaluate fuel e
      writeLine v.text .output
      return .completed
    | .varDecl name none => do
      define name .nil
      return .completed
    | .varDecl name (some e) => do
      let v ← evaluate fuel e
      define name v
      return .completed
    | .block body => do
      let env ← newFrame .empty (← Run.read Machine.env)
      within env (executeAll fuel body)
    | .branch condition thenBranch none => do
      let v ← evaluate fuel condition
      if v.isTruthy then execute fuel thenBranch else return .completed
    | .branch condition thenBranch (some elseBranch) => do
      let v ← evaluate fuel condition
      if v.isTruthy then execute fuel thenBranch else execute fuel elseBranch
    | .loop condition body => repeatWhile fuel condition body
    | .funDecl name routine => do
      let closure ← closureHere name routine
      define name (.function (← newFunction closure))
      return .completed
    | .returns _ _ none => return .returned .nil
    | .returns _ _ (some e) => do
      let v ← evaluate fuel e
      return .returned v
    | .breaks _ => return .broke
    | .classDecl name superclass methods statics => do
      let parent ← evaluateSuperclass fuel superclass
      define name .nil
      let c ← newClass name parent methods statics
      overwrite name (.klass c)
      return .completed
termination_by structural n => n

/-- Runs statements until one does not complete. -/
def executeAll : (fuel : Nat) → List Stmt → Eval Flow
  | 0, _ => Run.exhausted
  | _ + 1, [] => return .completed
  | fuel + 1, st :: sts => do
    match ← execute fuel st with
    | .completed => executeAll fuel sts
    | flow => return flow
termination_by structural n => n

/-- Runs the body as long as the condition holds. -/
def repeatWhile : (fuel : Nat) → (condition : Expr) → (body : Stmt) → Eval Flow
  | 0, _, _ => Run.exhausted
  | fuel + 1, condition, body => do
    let v ← evaluate fuel condition
    if v.isTruthy then
      match ← execute fuel body with
      | .completed => repeatWhile fuel condition body
      | .broke => return .completed
      | .returned v => return .returned v
    else return .completed
termination_by structural n => n

end

/-- Runs the statements of a program one after the other. -/
def executeEach (fuel : Nat) : List Stmt → Eval Unit
  | [] => return ()
  | st :: sts => do
    let _ ← execute fuel st
    executeEach fuel sts

/-- Flushes the output after a run, also after one that failed. A failure to flush replaces any other. -/
def flushing {α : Type} (body : Eval α) : Eval α := fun m =>
  match body m with
  | .done a m' => if m'.output.flushFails then .failed (.output .flushFailed) m' else .done a m'
  | .failed e m' => if m'.output.flushFails then .failed (.output .flushFailed) m' else .failed e m'
  | .exhausted => .exhausted

/-- Runs a program whose variables are bound by the table. Tables of earlier programs are kept:
their functions can still be called. -/
def interpret (fuel : Nat) (program : List Stmt) (table : BindingTable) : Eval Unit := do
  Run.update fun m => { m with bindings := m.bindings.merge table }
  flushing (executeEach fuel program)

end Eval

end Lox
