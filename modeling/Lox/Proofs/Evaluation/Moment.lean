import Lox.Evaluate
import Lox.Proofs.Scope.Lexical

/-!
# Moments of an evaluation

A moment is a piece of work that an evaluation turns to, with the machine as it is then. A moment
calls others: those that the evaluation nests in it. It creates environments, and it accesses the
variables of nodes.
-/

namespace Lox

/-- A piece of work of the evaluation. -/
inductive Activity where
  | expr (e : Expr)
  | exprs (es : List Expr)
  | setProperty (object : Value) (name : Name) (value : Expr)
  | property (object : Value) (name : Name)
  | superProperty (id : NodeId) (line : Nat) (method : Name)
  | methodOf (method : Closure) (receiver : Instance) (line : Nat)
  | call (callee : Value) (arguments : List Value) (line : Nat)
  | apply (callee : Callee) (arguments : List Value) (line : Nat)
  | enter (c : Closure) (arguments : List Value) (line : Nat)
  | runBody (c : Closure) (arguments : List Value)
  | stmt (st : Stmt)
  /-- The superclass of the class of that name. -/
  | superclass (cls : Name) (ref : Option Reference)
  | stmts (sts : List Stmt)
  | loop (condition : Expr) (body : Stmt)

namespace Activity

def Result : Activity → Type
  | expr _ => Value
  | exprs _ => List Value
  | setProperty _ _ _ => Value
  | property _ _ => Value
  | superProperty _ _ _ => Value
  | methodOf _ _ _ => Value
  | call _ _ _ => Value
  | apply _ _ _ => Value
  | enter _ _ _ => Value
  | runBody _ _ => Value
  | stmt _ => Flow
  | superclass _ _ => Option Class
  | stmts _ => Flow
  | loop _ _ => Flow

def run (fuel : Nat) : (a : Activity) → Eval a.Result
  | expr e => Eval.evaluate fuel e
  | exprs es => Eval.evaluateAll fuel es
  | setProperty object name value => Eval.setProperty fuel object name value
  | property object name => Eval.property fuel object name
  | superProperty id line method => Eval.superProperty fuel id line method
  | methodOf method receiver line => Eval.methodOf fuel method receiver line
  | call callee arguments line => Eval.call fuel callee arguments line
  | apply callee arguments line => Eval.apply fuel callee arguments line
  | enter c arguments line => Eval.enter fuel c arguments line
  | runBody c arguments => Eval.runBody fuel c arguments
  | stmt st => Eval.execute fuel st
  | superclass _ ref => Eval.evaluateSuperclass fuel ref
  | stmts sts => Eval.executeAll fuel sts
  | loop condition body => Eval.repeatWhile fuel condition body

theorem run_zero (a : Activity) (m : Machine) : a.run 0 m = .exhausted := by
  cases a <;> rfl

end Activity

structure Moment where
  fuel : Nat
  activity : Activity
  machine : Machine

namespace Moment

open Eval

/-- What the work ends in. -/
def outcome (x : Moment) : Outcome Machine Error x.activity.Result := x.activity.run x.fuel x.machine

/-- The evaluation of the first moment turns to the second. -/
inductive Calls : Moment → Moment → Prop where
  | unary {n m op line e} : Calls ⟨n + 1, .expr (.unary op line e), m⟩ ⟨n, .expr e, m⟩
  | binaryLeft {n m op line l r} : Calls ⟨n + 1, .expr (.binary op line l r), m⟩ ⟨n, .expr l, m⟩
  | binaryRight {n m op line l r v m'} : evaluate n l m = .done v m' →
    Calls ⟨n + 1, .expr (.binary op line l r), m⟩ ⟨n, .expr r, m'⟩
  | logicalLeft {n m op line l r} : Calls ⟨n + 1, .expr (.logical op line l r), m⟩ ⟨n, .expr l, m⟩
  | logicalRight {n m op line l r v m'} : evaluate n l m = .done v m' → op.shortCircuits v = false →
    Calls ⟨n + 1, .expr (.logical op line l r), m⟩ ⟨n, .expr r, m'⟩
  | group {n m e} : Calls ⟨n + 1, .expr (.group e), m⟩ ⟨n, .expr e, m⟩
  | assigned {n m id name e} : Calls ⟨n + 1, .expr (.assign id name e), m⟩ ⟨n, .expr e, m⟩
  | callee {n m f line args} : Calls ⟨n + 1, .expr (.call f line args), m⟩ ⟨n, .expr f, m⟩
  | arguments {n m f line args v m'} : evaluate n f m = .done v m' →
    Calls ⟨n + 1, .expr (.call f line args), m⟩ ⟨n, .exprs args, m'⟩
  | call {n m f line args v m' vs m''} : evaluate n f m = .done v m' → evaluateAll n args m' = .done vs m'' →
    Calls ⟨n + 1, .expr (.call f line args), m⟩ ⟨n, .call v vs line, m''⟩
  | getObject {n m e name} : Calls ⟨n + 1, .expr (.get e name), m⟩ ⟨n, .expr e, m⟩
  | get {n m e name v m'} : evaluate n e m = .done v m' →
    Calls ⟨n + 1, .expr (.get e name), m⟩ ⟨n, .property v name, m'⟩
  | setObject {n m e name value} : Calls ⟨n + 1, .expr (.set e name value), m⟩ ⟨n, .expr e, m⟩
  | set {n m e name value v m'} : evaluate n e m = .done v m' →
    Calls ⟨n + 1, .expr (.set e name value), m⟩ ⟨n, .setProperty v name value, m'⟩
  | super {n m id line method} :
    Calls ⟨n + 1, .expr (.super id line method), m⟩ ⟨n, .superProperty id line method, m⟩
  | head {n m e es} : Calls ⟨n + 1, .exprs (e :: es), m⟩ ⟨n, .expr e, m⟩
  | tail {n m e es v m'} : evaluate n e m = .done v m' → Calls ⟨n + 1, .exprs (e :: es), m⟩ ⟨n, .exprs es, m'⟩
  | fieldValue {n m i name e} : Calls ⟨n + 1, .setProperty (.object i) name e, m⟩ ⟨n, .expr e, m⟩
  | method {n m i name f} : m.store.field? i name.text = none → i.cls.method? name.text = some f →
    Calls ⟨n + 1, .property (.object i) name, m⟩ ⟨n, .methodOf f.closure i name.line, m⟩
  | staticGetter {n m c name f} : c.static? name.text = some f → f.closure.isGetter = true →
    Calls ⟨n + 1, .property (.klass c) name, m⟩ ⟨n, .enter f.closure [] name.line, m⟩
  | superMethod {n m id line method c i f} : superClass id line m = .done c m → superReceiver id line m = .done i m →
    c.method? method.text = some f →
    Calls ⟨n + 1, .superProperty id line method, m⟩ ⟨n, .methodOf f.closure i method.line, m⟩
  | getter {n m c i line bound m'} : bindThis c i m = .done bound m' → bound.isGetter = true →
    Calls ⟨n + 1, .methodOf c i line, m⟩ ⟨n, .enter bound [] line, m'⟩
  | apply {n m v args line f} : v.callee? = some f → args.length = f.arity →
    Calls ⟨n + 1, .call v args line, m⟩ ⟨n, .apply f args line, m⟩
  | closure {n m c args line} : Calls ⟨n + 1, .apply (.closure c) args line, m⟩ ⟨n, .enter c args line, m⟩
  | initializer {n m c args line i m' f bound m''} : newInstance c m = .done i m' → c.initializer? = some f →
    bindThis f.closure i m' = .done bound m'' →
    Calls ⟨n + 1, .apply (.construct c) args line, m⟩ ⟨n, .enter bound args line, m''⟩
  | enter {n m c args line} : ¬ maxDepth ≤ m.depth →
    Calls ⟨n + 1, .enter c args line, m⟩ ⟨n, .runBody c args, { m with depth := m.depth + 1 }⟩
  | body {n m c args env m'} : newFrame (argumentFrame c.routine.params args) c.env m = .done env m' →
    Calls ⟨n + 1, .runBody c args, m⟩ ⟨n, .stmts c.routine.body, { m' with env }⟩
  | statement {n m e} : Calls ⟨n + 1, .stmt (.expr e), m⟩ ⟨n, .expr e, m⟩
  | print {n m e} : Calls ⟨n + 1, .stmt (.print e), m⟩ ⟨n, .expr e, m⟩
  | varDecl {n m name e} : Calls ⟨n + 1, .stmt (.varDecl name (some e)), m⟩ ⟨n, .expr e, m⟩
  | block {n m sts env m'} : newFrame .empty m.env m = .done env m' →
    Calls ⟨n + 1, .stmt (.block sts), m⟩ ⟨n, .stmts sts, { m' with env }⟩
  | condition {n m c st st'} : Calls ⟨n + 1, .stmt (.branch c st st'), m⟩ ⟨n, .expr c, m⟩
  | thenBranch {n m c st st' v m'} : evaluate n c m = .done v m' → v.isTruthy = true →
    Calls ⟨n + 1, .stmt (.branch c st st'), m⟩ ⟨n, .stmt st, m'⟩
  | elseBranch {n m c st st' v m'} : evaluate n c m = .done v m' → v.isTruthy = false →
    Calls ⟨n + 1, .stmt (.branch c st (some st')), m⟩ ⟨n, .stmt st', m'⟩
  | loop {n m c st} : Calls ⟨n + 1, .stmt (.loop c st), m⟩ ⟨n, .loop c st, m⟩
  | returns {n m form line e} : Calls ⟨n + 1, .stmt (.returns form line (some e)), m⟩ ⟨n, .expr e, m⟩
  | superclass {n m name ref ms ss} : Calls ⟨n + 1, .stmt (.classDecl name ref ms ss), m⟩ ⟨n, .superclass name ref, m⟩
  | first {n m st sts} : Calls ⟨n + 1, .stmts (st :: sts), m⟩ ⟨n, .stmt st, m⟩
  | rest {n m st sts m'} : execute n st m = .done .completed m' →
    Calls ⟨n + 1, .stmts (st :: sts), m⟩ ⟨n, .stmts sts, m'⟩
  | loopCondition {n m c st} : Calls ⟨n + 1, .loop c st, m⟩ ⟨n, .expr c, m⟩
  | loopBody {n m c st v m'} : evaluate n c m = .done v m' → v.isTruthy = true →
    Calls ⟨n + 1, .loop c st, m⟩ ⟨n, .stmt st, m'⟩
  | again {n m c st v m' m''} : evaluate n c m = .done v m' → v.isTruthy = true →
    execute n st m' = .done .completed m'' → Calls ⟨n + 1, .loop c st, m⟩ ⟨n, .loop c st, m''⟩

/-- The evaluation of the first moment turns to the second sooner or later. -/
inductive Reaches : Moment → Moment → Prop where
  | refl {x} : Reaches x x
  | step {x y z} : Calls x y → Reaches y z → Reaches x z

end Moment

/-- The statement declares a class with a method of that code. -/
def Stmt.DeclaresMethod (decl : Stmt) (r : Routine) : Prop :=
  ∃ name superclass methods statics, decl = .classDecl name superclass methods statics ∧ ∃ m ∈ methods, m.routine = r

namespace Moment

open Eval

/-- The moment makes a new environment for what opens a scope: a new frame inside another environment. -/
inductive Creates : Moment → Env → Opener → Prop where
  | block {n m sts env m'} : newFrame .empty m.env m = .done env m' →
    Creates ⟨n + 1, .stmt (.block sts), m⟩ env (.block sts)
  | body {n m c args env m'} : newFrame (argumentFrame c.routine.params args) c.env m = .done env m' →
    Creates ⟨n + 1, .runBody c args, m⟩ env (.routine c.routine)
  | bound {n m c i line bound m' decl} : bindThis c i m = .done bound m' → decl.DeclaresMethod c.routine →
    Creates ⟨n + 1, .methodOf c i line, m⟩ bound.env (.receiver decl)
  | initializer {n m c args line i m' f bound m'' decl} : newInstance c m = .done i m' → c.initializer? = some f →
    bindThis f.closure i m' = .done bound m'' → decl.DeclaresMethod f.closure.routine →
    Creates ⟨n + 1, .apply (.construct c) args line, m⟩ bound.env (.receiver decl)
  | derived {n m name ref ms ss c m' m'' env m'''} : evaluateSuperclass n (some ref) m = .done (some c) m' →
    define name .nil m' = .done () m'' →
    newFrame (Dict.empty.insert "super" (.klass c)) m''.env m'' = .done env m''' →
    Creates ⟨n + 1, .stmt (.classDecl name (some ref) ms ss), m⟩ env (.parent (.classDecl name (some ref) ms ss))

/-- In the moment the variable of the node with that identity is read or written, on that machine. -/
inductive Accesses : Moment → NodeId → Name → Machine → Prop where
  | var {n m id name} : Accesses ⟨n + 1, .expr (.var id name), m⟩ id name m
  | assign {n m id name e v m'} : evaluate n e m = .done v m' →
    Accesses ⟨n + 1, .expr (.assign id name e), m⟩ id name m'
  | this {n m id line} : Accesses ⟨n + 1, .expr (.this id line), m⟩ id ⟨"this", line⟩ m
  | super {n m id line method} : Accesses ⟨n + 1, .superProperty id line method, m⟩ id ⟨"super", line⟩ m
  | superclass {n m cls ref} : Accesses ⟨n + 1, .superclass cls (some ref), m⟩ ref.id ref.name m

variable {x y z : Moment}

theorem Reaches.trans (h : x.Reaches y) (h' : y.Reaches z) : x.Reaches z := by
  induction h with
  | refl => exact h'
  | step hc _ ih => exact .step hc (ih h')

end Moment

end Lox
