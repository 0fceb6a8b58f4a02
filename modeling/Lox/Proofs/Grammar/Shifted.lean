import Lox.Proofs.Grammar.Statements
import Lox.Proofs.Syntax.Recoded

/-!
# Reading with other identities

The identities that are left do not decide what is read. With the next one moved up, every rule reads the same tree
with its identities moved up, goes on at the same token, and reports the same.
-/

namespace Lox

/-- The same code with its identities moved up. -/
def Recoding.shift (offset : Nat) : Recoding := ⟨id, (· + offset)⟩

def Reader.shifted (offset : Nat) (r : Reader) : Reader := { r with nextId := r.nextId + offset }

/-- The same outcome with its result changed and the next identity moved up. -/
def Parse.moved {α β : Type} (offset : Nat) (f : α → β) : Outcome Reader Error α → Outcome Reader Error β
  | .done a r => .done (f a) (r.shifted offset)
  | .failed e r => .failed e (r.shifted offset)
  | .exhausted => .exhausted

/-- `rule'` reads as `rule` does, with the identities moved up. -/
def Shifts {α β : Type} (offset : Nat) (f : α → β) (rule : Parse α) (rule' : Parse β) : Prop :=
  ∀ r, rule' (r.shifted offset) = Parse.moved offset f (rule r)

section
variable {α β γ δ : Type} {k : Nat}

namespace Shifts

theorem pure {f : α → β} (a : α) : Shifts k f (Pure.pure a) (Pure.pure (f a)) := fun _ => rfl

theorem exhausted (f : α → β) : Shifts k f Run.exhausted Run.exhausted := fun _ => rfl

theorem bind {f : α → β} {g : γ → δ} {rule : Parse α} {rule' : Parse β} {next : α → Parse γ} {next' : β → Parse δ}
    (h : Shifts k f rule rule') (hn : ∀ a, Shifts k g (next a) (next' (f a))) : Shifts k g (rule >>= next) (rule' >>= next') := by
  intro r
  rw [Run.bind_apply, Run.bind_apply, h r]
  cases rule r with
  | done a r₁ => exact hn a r₁
  | failed e r₁ => rfl
  | exhausted => rfl

theorem ite {f : α → β} {c : Prop} [Decidable c] {yes no : Parse α} {yes' no' : Parse β} (hy : Shifts k f yes yes')
    (hn : Shifts k f no no') : Shifts k f (if c then yes else no) (if c then yes' else no') := by
  split
  · exact hy
  · exact hn

/-- What does not touch the identities. -/
theorem read {g : Reader → α} (h : ∀ r, g (r.shifted k) = g r) : Shifts k id (Run.read g) (Run.read g) :=
  fun r => congrArg (Outcome.done · _) (h r)

end Shifts

namespace Parse

/-! ## Single tokens -/

theorem shifts_line : Shifts k id line line := .read fun _ => rfl

theorem shifts_kind : Shifts k id kind? kind? := .read fun _ => rfl

theorem shifts_skip : Shifts k id skip skip := fun _ => rfl

theorem shifts_fail {f : α → β} (fault : SyntaxFault) : Shifts k f (fail fault) (fail fault) := fun _ => rfl

theorem shifts_report (fault : SyntaxFault) : Shifts k id (report fault) (report fault) := fun _ => rfl

theorem shifts_reportAt (site : Site) (fault : SyntaxFault) : Shifts k id (reportAt site fault) (reportAt site fault) :=
  fun _ => rfl

theorem shifts_freshId : Shifts k (· + k) freshId freshId := by
  intro r
  simp only [freshId, moved, Reader.shifted, Nat.add_right_comm]

theorem shifts_reread (e : Expr) :
    Shifts k (Expr.recoded (.shift k)) (reread e) (reread (e.recoded (.shift k))) := by
  intro r
  simp only [reread, moved, Reader.shifted, Recoding.shift, Expr.fresh_recoded]

theorem shifts_accept (kind : Token.Kind) : Shifts k id (accept kind) (accept kind) := by
  intro r
  unfold accept
  show (if r.kind? = some kind then _ else _) = _
  split <;> rfl

theorem shifts_expectMark (m : Mark) (place : Place) : Shifts k id (expectMark m place) (expectMark m place) := by
  intro r
  unfold expectMark
  show (if r.kind? = some (.mark m) then _ else _) = _
  split <;> rfl

theorem shifts_expectName (fault : SyntaxFault) : Shifts k id (expectName fault) (expectName fault) := by
  intro r
  have hk : (r.shifted k).kind? = r.kind? := rfl
  unfold expectName
  rw [hk]
  cases r.kind? with
  | none => rfl
  | some kind => cases kind <;> rfl

theorem shifts_atMark (m : Mark) : Shifts k id (atMark m) (atMark m) := shifts_kind.bind fun _ => .pure _

theorem shifts_before (m : Mark) : Shifts k id (before m) (before m) := shifts_kind.bind fun _ => .pure _

theorem shifts_atFunctionDeclaration : Shifts k id atFunctionDeclaration atFunctionDeclaration := .read fun _ => rfl

/-! ## Parts of rules -/

theorem shifts_recover {f : α → β} {rule : Parse α} {rule' : Parse β} (h : Shifts k f rule rule') :
    Shifts k (Option.map f) (recover rule) (recover rule') := by
  intro r
  unfold recover
  rw [h r]
  cases rule r <;> rfl

theorem shifts_unlessAt {f : α → β} {rule : Parse α} {rule' : Parse β} (m : Mark) (h : Shifts k f rule rule') :
    Shifts k (Option.map f) (unlessAt m rule) (unlessAt m rule') :=
  (shifts_atMark m).bind fun _ => .ite (.pure none) (h.bind fun a => .pure (some a))

theorem shifts_ifAccepted {f : α → β} {rule : Parse α} {rule' : Parse β} (kind : Token.Kind) (h : Shifts k f rule rule') :
    Shifts k (Option.map f) (ifAccepted kind rule) (ifAccepted kind rule') :=
  (shifts_accept kind).bind fun _ => .ite (h.bind fun a => .pure (some a)) (.pure none)

theorem shifts_checkCount (count : Nat) (fault : SyntaxFault) :
    Shifts k id (checkCount count fault) (checkCount count fault) :=
  .ite (shifts_report fault) (.pure ())

theorem shifts_endBody (closed : Bool) : Shifts k id (endBody closed) (endBody closed) :=
  .ite ((shifts_expectMark _ _).bind fun _ => .pure ()) (.pure ())

theorem shifts_acceptAssignment : Shifts k id acceptAssignment acceptAssignment := by
  refine .bind (.read fun _ => rfl) fun site => shifts_kind.bind fun kind => ?_
  dsimp only [id]
  split
  · split
    · exact shifts_skip.bind fun _ => .pure _
    · exact .pure none
  · exact .pure none

theorem shifts_acceptLeading : Shifts k id acceptLeading acceptLeading := by
  refine .bind (.read fun _ => rfl) fun site => shifts_kind.bind fun kind => ?_
  dsimp only [id]
  split
  · split
    · exact shifts_skip.bind fun _ => .pure _
    · exact .pure none
  · exact .pure none

theorem shifts_acceptConnective (level : Nat) : Shifts k id (acceptConnective level) (acceptConnective level) := by
  refine shifts_line.bind fun line => shifts_kind.bind fun kind => ?_
  dsimp only [id]
  split
  · exact shifts_skip.bind fun _ => .pure _
  · exact .pure none

theorem shifts_assignTo (target value : Expr) (site : Site) (fault : SyntaxFault) :
    Shifts k (Expr.recoded (.shift k)) (assignTo target value site fault)
      (assignTo (target.recoded (.shift k)) (value.recoded (.shift k)) site fault) := by
  cases target with
  | var id name => exact shifts_freshId.bind fun id' => .pure (Expr.assign id' name value)
  | get object name => exact .pure (Expr.set object name value)
  | _ => exact (shifts_reportAt site fault).bind fun _ => .pure _

theorem shifts_updateBy (op : Mark) (target operand : Expr) (site : Site) (fault : SyntaxFault) :
    Shifts k (Expr.recoded (.shift k)) (updateBy op target operand site fault)
      (updateBy op (target.recoded (.shift k)) (operand.recoded (.shift k)) site fault) :=
  (shifts_reread target).bind fun old => shifts_assignTo target (.binary op site.line old operand) site fault

theorem shifts_atom : Shifts k (Option.map (Expr.recoded (.shift k))) atom? atom? := by
  have literal : ∀ value : Literal, Shifts k (Option.map (Expr.recoded (.shift k)))
      (do skip; return some (.literal value)) (do skip; return some (.literal value)) :=
    fun value => shifts_skip.bind fun _ => .pure (some (Expr.literal value))
  refine shifts_line.bind fun line => shifts_kind.bind fun kind => ?_
  dsimp only [id]
  split
  · exact literal _
  · exact literal _
  · exact literal _
  · exact literal _
  · exact literal _
  · exact shifts_skip.bind fun _ => shifts_freshId.bind fun id => .pure (some (Expr.this id line))
  · refine shifts_skip.bind fun _ => (shifts_expectMark _ _).bind fun _ => (shifts_expectName _).bind fun method => ?_
    exact shifts_freshId.bind fun id => .pure (some (Expr.super id line method))
  · exact shifts_skip.bind fun _ => shifts_freshId.bind fun id => .pure (some (Expr.var id { text := _, line }))
  · exact .pure none

theorem shifts_parameterList : ∀ fuel count : Nat, Shifts k id (parameterList fuel count) (parameterList fuel count)
  | 0, _ => .exhausted _
  | fuel + 1, count => by
    rw [parameterList]
    refine (shifts_checkCount _ _).bind fun _ => (shifts_expectName _).bind fun param => (shifts_accept _).bind fun _ => .ite ?_ ?_
    · exact (shifts_parameterList fuel (count + 1)).bind fun rest => .pure (param :: rest)
    · exact .pure [param]

theorem shifts_parameters (fuel : Nat) : Shifts k id (parameters fuel) (parameters fuel) := by
  refine (shifts_unlessAt _ (shifts_parameterList fuel 0)).bind fun params => (shifts_expectMark _ _).bind fun _ => ?_
  cases params <;> exact .pure _

theorem shifts_superclass : Shifts k (Option.map (Reference.recoded (.shift k))) superclass? superclass? := by
  refine (shifts_accept _).bind fun _ => .ite ?_ (.pure none)
  exact (shifts_expectName _).bind fun name => shifts_freshId.bind fun id => .pure (some (Reference.mk id name))

/-- Names have no identities. -/
theorem shift_params (params : List Name) (body : List Stmt) :
    (⟨params, recodedStmts (.shift k) body⟩ : Routine) = Routine.recoded (.shift k) ⟨params, body⟩ :=
  congrArg (Routine.mk · _) (List.map_id params).symm

theorem forLoop_recoded (ρ : Recoding) (init : Option Stmt) (condition increment : Option Expr) (body : Stmt) :
    (forLoop init condition increment body).recoded ρ =
      forLoop (init.map (Stmt.recoded ρ)) (condition.map (Expr.recoded ρ)) (increment.map (Expr.recoded ρ)) (body.recoded ρ) := by
  cases init <;> cases condition <;> cases increment <;> rfl

/-! ## The rules -/

/-- Every rule with this fuel. -/
structure Shifting (k fuel : Nat) : Prop where
  expression : Shifts k (Expr.recoded (.shift k)) (expression fuel) (expression fuel)
  operand (level : Nat) : Shifts k (Expr.recoded (.shift k)) (operand fuel level) (operand fuel level)
  operatorChain (level : Nat) (left : Expr) : Shifts k (Expr.recoded (.shift k)) (operatorChain fuel level left)
    (operatorChain fuel level (left.recoded (.shift k)))
  unary : Shifts k (Expr.recoded (.shift k)) (unary fuel) (unary fuel)
  suffixes (head : Expr) : Shifts k (Expr.recoded (.shift k)) (suffixes fuel head) (suffixes fuel (head.recoded (.shift k)))
  argumentList (count : Nat) : Shifts k (recodedExprs (.shift k)) (argumentList fuel count) (argumentList fuel count)
  primary : Shifts k (Expr.recoded (.shift k)) (primary fuel) (primary fuel)
  routineBody (closed : Bool) : Shifts k (recodedStmts (.shift k)) (routineBody fuel closed) (routineBody fuel closed)
  block : Shifts k (recodedStmts (.shift k)) (block fuel) (block fuel)
  declarations : Shifts k (recodedStmts (.shift k)) (declarations fuel) (declarations fuel)
  declaration : Shifts k (Option.map (Stmt.recoded (.shift k))) (declaration fuel) (declaration fuel)
  classDeclaration : Shifts k (Stmt.recoded (.shift k)) (classDeclaration fuel) (classDeclaration fuel)
  members : Shifts k (Prod.map (recodedMethods (.shift k)) (recodedMethods (.shift k))) (members fuel) (members fuel)
  method : Shifts k (Method.recoded (.shift k)) (method fuel) (method fuel)
  varDeclaration : Shifts k (Stmt.recoded (.shift k)) (varDeclaration fuel) (varDeclaration fuel)
  statement : Shifts k (Stmt.recoded (.shift k)) (statement fuel) (statement fuel)
  expressionStatement : Shifts k (Stmt.recoded (.shift k)) (expressionStatement fuel) (expressionStatement fuel)
  ifStatement : Shifts k (Stmt.recoded (.shift k)) (ifStatement fuel) (ifStatement fuel)
  forStatement : Shifts k (Stmt.recoded (.shift k)) (forStatement fuel) (forStatement fuel)
  forInitializer : Shifts k (Option.map (Stmt.recoded (.shift k))) (forInitializer fuel) (forInitializer fuel)

namespace Shifting

theorem zero : Shifting k 0 where
  expression := .exhausted _
  operand _ := .exhausted _
  operatorChain _ _ := .exhausted _
  unary := .exhausted _
  suffixes _ := .exhausted _
  argumentList _ := .exhausted _
  primary := .exhausted _
  routineBody _ := .exhausted _
  block := .exhausted _
  declarations := .exhausted _
  declaration := .exhausted _
  classDeclaration := .exhausted _
  members := .exhausted _
  method := .exhausted _
  varDeclaration := .exhausted _
  statement := .exhausted _
  expressionStatement := .exhausted _
  ifStatement := .exhausted _
  forStatement := .exhausted _
  forInitializer := .exhausted _

section
variable {fuel : Nat} (h : Shifting k fuel)
include h

/-! ### Expressions -/

theorem expression_succ : Shifts k (Expr.recoded (.shift k)) (Parse.expression (fuel + 1)) (Parse.expression (fuel + 1)) := by
  rw [Parse.expression]
  refine (h.operand 0).bind fun target => shifts_acceptAssignment.bind fun found => ?_
  rcases found with _ | ⟨_ | op, site⟩
  case none => exact .pure target
  case some.store => exact h.expression.bind fun value => shifts_assignTo target value site _
  case some.combine => exact h.expression.bind fun value => shifts_updateBy op target value site _

theorem operand_succ (level : Nat) :
    Shifts k (Expr.recoded (.shift k)) (Parse.operand (fuel + 1) level) (Parse.operand (fuel + 1) level) := by
  rw [Parse.operand]
  exact .ite ((h.operand (level + 1)).bind fun left => h.operatorChain level left) h.unary

theorem operatorChain_succ (level : Nat) (left : Expr) : Shifts k (Expr.recoded (.shift k))
    (Parse.operatorChain (fuel + 1) level left) (Parse.operatorChain (fuel + 1) level (left.recoded (.shift k))) := by
  rw [Parse.operatorChain, Parse.operatorChain]
  refine (shifts_acceptConnective level).bind fun found => ?_
  rcases found with _ | ⟨c, line⟩
  case none => exact .pure left
  case some =>
    refine (h.operand (level + 1)).bind fun right => ?_
    have hjoin : c.join line (left.recoded (.shift k)) (right.recoded (.shift k)) = (c.join line left right).recoded (.shift k) := by
      cases c <;> rfl
    rw [hjoin]
    exact h.operatorChain level _

theorem unary_succ : Shifts k (Expr.recoded (.shift k)) (Parse.unary (fuel + 1)) (Parse.unary (fuel + 1)) := by
  rw [Parse.unary]
  refine shifts_acceptLeading.bind fun found => ?_
  rcases found with _ | ⟨op | op, site⟩
  case some.operator => exact h.unary.bind fun e => .pure (Expr.unary op site.line e)
  case some.increment => exact h.unary.bind fun target => shifts_updateBy op target (.literal (.number 1)) site _
  case none => exact h.primary.bind fun head => h.suffixes head

theorem suffixes_succ (head : Expr) : Shifts k (Expr.recoded (.shift k)) (Parse.suffixes (fuel + 1) head)
    (Parse.suffixes (fuel + 1) (head.recoded (.shift k))) := by
  rw [Parse.suffixes, Parse.suffixes]
  refine (shifts_accept _).bind fun _ => .ite ?_ ((shifts_accept _).bind fun _ => .ite ?_ (.pure head))
  · refine (shifts_unlessAt _ (h.argumentList 0)).bind fun arguments => (shifts_expectMark _ _).bind fun line => ?_
    cases arguments with
    | none => exact h.suffixes (.call head line [])
    | some es => exact h.suffixes (.call head line es)
  · exact (shifts_expectName _).bind fun name => h.suffixes (.get head name)

theorem argumentList_succ (count : Nat) : Shifts k (recodedExprs (.shift k)) (Parse.argumentList (fuel + 1) count)
    (Parse.argumentList (fuel + 1) count) := by
  rw [Parse.argumentList]
  refine (shifts_checkCount _ _).bind fun _ => h.expression.bind fun e => (shifts_accept _).bind fun _ => .ite ?_ (.pure [e])
  exact (h.argumentList (count + 1)).bind fun es => .pure (e :: es)

theorem primary_succ : Shifts k (Expr.recoded (.shift k)) (Parse.primary (fuel + 1)) (Parse.primary (fuel + 1)) := by
  rw [Parse.primary]
  refine shifts_atom.bind fun found => ?_
  cases found with
  | some e => exact .pure e
  | none =>
    refine shifts_line.bind fun line => (shifts_accept _).bind fun _ => .ite ?_ ((shifts_accept _).bind fun _ => .ite ?_ (shifts_fail _))
    · exact h.expression.bind fun inner => (shifts_expectMark _ _).bind fun _ => .pure (Expr.group inner)
    · refine (shifts_expectMark _ _).bind fun _ => (shifts_parameters fuel).bind fun params => ?_
      refine (h.routineBody false).bind fun body => ?_
      rw [shift_params]
      exact .pure (Expr.lambda line ⟨params, body⟩)

/-! ### Functions and classes -/

theorem routineBody_succ (closed : Bool) : Shifts k (recodedStmts (.shift k)) (Parse.routineBody (fuel + 1) closed)
    (Parse.routineBody (fuel + 1) closed) := by
  rw [Parse.routineBody]
  refine shifts_line.bind fun line => (shifts_accept _).bind fun _ => .ite h.block ((shifts_accept _).bind fun _ => .ite ?_ (shifts_fail _))
  exact h.expression.bind fun value => (shifts_endBody closed).bind fun _ =>
    .pure [Stmt.returns .expressionBody line (some value)]

theorem block_succ : Shifts k (recodedStmts (.shift k)) (Parse.block (fuel + 1)) (Parse.block (fuel + 1)) := by
  rw [Parse.block]
  exact h.declarations.bind fun body => (shifts_expectMark _ _).bind fun _ => .pure body

theorem declarations_succ :
    Shifts k (recodedStmts (.shift k)) (Parse.declarations (fuel + 1)) (Parse.declarations (fuel + 1)) := by
  rw [Parse.declarations]
  refine (shifts_before _).bind fun _ => .ite ?_ (.pure [])
  refine h.declaration.bind fun first => h.declarations.bind fun rest => ?_
  cases first with
  | none => exact .pure rest
  | some st => exact .pure (st :: rest)

theorem declaration_succ :
    Shifts k (Option.map (Stmt.recoded (.shift k))) (Parse.declaration (fuel + 1)) (Parse.declaration (fuel + 1)) := by
  rw [Parse.declaration]
  refine shifts_recover ((shifts_accept _).bind fun _ => .ite h.classDeclaration ?_)
  refine shifts_atFunctionDeclaration.bind fun _ => .ite ?_ ((shifts_accept _).bind fun _ => .ite h.varDeclaration h.statement)
  refine shifts_skip.bind fun _ => (shifts_expectName _).bind fun name => (shifts_expectMark _ _).bind fun _ => ?_
  refine (shifts_parameters fuel).bind fun params => (h.routineBody true).bind fun body => ?_
  rw [shift_params]
  exact .pure (Stmt.funDecl name ⟨params, body⟩)

theorem classDeclaration_succ :
    Shifts k (Stmt.recoded (.shift k)) (Parse.classDeclaration (fuel + 1)) (Parse.classDeclaration (fuel + 1)) := by
  rw [Parse.classDeclaration]
  refine (shifts_expectName _).bind fun name => shifts_superclass.bind fun superclass => (shifts_expectMark _ _).bind fun _ => ?_
  refine h.members.bind fun found => (shifts_expectMark _ _).bind fun _ => ?_
  obtain ⟨methods, statics⟩ := found
  exact .pure (Stmt.classDecl name superclass methods statics)

theorem members_succ : Shifts k (Prod.map (recodedMethods (.shift k)) (recodedMethods (.shift k))) (Parse.members (fuel + 1))
    (Parse.members (fuel + 1)) := by
  rw [Parse.members]
  refine (shifts_before _).bind fun _ => .ite ?_ (.pure ([], []))
  refine (shifts_accept _).bind fun isStatic => h.method.bind fun m => h.members.bind fun found => ?_
  obtain ⟨methods, statics⟩ := found
  cases isStatic with
  | true => exact .pure (methods, m :: statics)
  | false => exact .pure (m :: methods, statics)

theorem method_succ : Shifts k (Method.recoded (.shift k)) (Parse.method (fuel + 1)) (Parse.method (fuel + 1)) := by
  rw [Parse.method]
  refine (shifts_expectName _).bind fun name => (shifts_ifAccepted _ (shifts_parameters fuel)).bind fun params => ?_
  refine (h.routineBody true).bind fun body => ?_
  rw [Option.map_id, id, shift_params]
  exact .pure (Method.mk name params.isNone ⟨params.getD [], body⟩)

/-! ### Statements -/

theorem varDeclaration_succ :
    Shifts k (Stmt.recoded (.shift k)) (Parse.varDeclaration (fuel + 1)) (Parse.varDeclaration (fuel + 1)) := by
  rw [Parse.varDeclaration]
  refine (shifts_expectName _).bind fun name => (shifts_ifAccepted _ h.expression).bind fun init => ?_
  refine (shifts_expectMark _ _).bind fun _ => ?_
  cases init with
  | none => exact .pure (Stmt.varDecl name none)
  | some e => exact .pure (Stmt.varDecl name (some e))

theorem statement_succ : Shifts k (Stmt.recoded (.shift k)) (Parse.statement (fuel + 1)) (Parse.statement (fuel + 1)) := by
  rw [Parse.statement]
  refine shifts_line.bind fun line => (shifts_accept _).bind fun _ => .ite h.forStatement ?_
  refine (shifts_accept _).bind fun _ => .ite h.ifStatement ((shifts_accept _).bind fun _ => .ite ?_ ?_)
  · refine (shifts_expectMark _ _).bind fun _ => h.expression.bind fun condition => (shifts_expectMark _ _).bind fun _ => ?_
    exact h.statement.bind fun body => .pure (Stmt.loop condition body)
  refine (shifts_accept _).bind fun _ => .ite ?_ ((shifts_accept _).bind fun _ => .ite ?_ ?_)
  · refine (shifts_unlessAt _ h.expression).bind fun value => (shifts_expectMark _ _).bind fun _ => ?_
    cases value with
    | none => exact .pure (Stmt.returns .keyword line none)
    | some e => exact .pure (Stmt.returns .keyword line (some e))
  · exact (shifts_expectMark _ _).bind fun _ => .pure (Stmt.breaks line)
  refine (shifts_accept _).bind fun _ => .ite (h.block.bind fun body => .pure (Stmt.block body)) ?_
  refine (shifts_accept _).bind fun _ => .ite ?_ h.expressionStatement
  exact h.expression.bind fun value => (shifts_expectMark _ _).bind fun _ => .pure (Stmt.print value)

theorem expressionStatement_succ : Shifts k (Stmt.recoded (.shift k)) (Parse.expressionStatement (fuel + 1))
    (Parse.expressionStatement (fuel + 1)) := by
  rw [Parse.expressionStatement]
  exact h.expression.bind fun e => (shifts_expectMark _ _).bind fun _ => .pure (Stmt.expr e)

theorem ifStatement_succ :
    Shifts k (Stmt.recoded (.shift k)) (Parse.ifStatement (fuel + 1)) (Parse.ifStatement (fuel + 1)) := by
  rw [Parse.ifStatement]
  refine (shifts_expectMark _ _).bind fun _ => h.expression.bind fun condition => (shifts_expectMark _ _).bind fun _ => ?_
  refine h.statement.bind fun thenBranch => (shifts_ifAccepted _ h.statement).bind fun elseBranch => ?_
  cases elseBranch with
  | none => exact .pure (Stmt.branch condition thenBranch none)
  | some st => exact .pure (Stmt.branch condition thenBranch (some st))

theorem forStatement_succ :
    Shifts k (Stmt.recoded (.shift k)) (Parse.forStatement (fuel + 1)) (Parse.forStatement (fuel + 1)) := by
  rw [Parse.forStatement]
  refine (shifts_expectMark _ _).bind fun _ => h.forInitializer.bind fun initializer => ?_
  refine (shifts_unlessAt _ h.expression).bind fun condition => (shifts_expectMark _ _).bind fun _ => ?_
  refine (shifts_unlessAt _ h.expression).bind fun increment => (shifts_expectMark _ _).bind fun _ => ?_
  refine h.statement.bind fun body => ?_
  rw [← forLoop_recoded]
  exact .pure _

theorem forInitializer_succ : Shifts k (Option.map (Stmt.recoded (.shift k))) (Parse.forInitializer (fuel + 1))
    (Parse.forInitializer (fuel + 1)) := by
  rw [Parse.forInitializer]
  refine (shifts_accept _).bind fun _ => .ite (.pure none) ((shifts_accept _).bind fun _ => .ite ?_ ?_)
  · exact h.varDeclaration.bind fun st => .pure (some st)
  · exact h.expressionStatement.bind fun st => .pure (some st)

end

end Shifting

theorem shifting (k : Nat) : ∀ fuel, Shifting k fuel
  | 0 => .zero
  | fuel + 1 =>
    have h := shifting k fuel
    { expression := h.expression_succ
      operand := h.operand_succ
      operatorChain := h.operatorChain_succ
      unary := h.unary_succ
      suffixes := h.suffixes_succ
      argumentList := h.argumentList_succ
      primary := h.primary_succ
      routineBody := h.routineBody_succ
      block := h.block_succ
      declarations := h.declarations_succ
      declaration := h.declaration_succ
      classDeclaration := h.classDeclaration_succ
      members := h.members_succ
      method := h.method_succ
      varDeclaration := h.varDeclaration_succ
      statement := h.statement_succ
      expressionStatement := h.expressionStatement_succ
      ifStatement := h.ifStatement_succ
      forStatement := h.forStatement_succ
      forInitializer := h.forInitializer_succ }

theorem shifts_program : ∀ fuel, Shifts k (recodedStmts (.shift k)) (program fuel) (program fuel)
  | 0 => .exhausted _
  | fuel + 1 => by
    rw [program]
    refine shifts_kind.bind fun kind => ?_
    cases kind with
    | none => exact .pure []
    | some kind =>
      refine (shifting k fuel).declaration.bind fun first => (shifts_program fuel).bind fun rest => ?_
      cases first with
      | none => exact .pure rest
      | some st => exact .pure (st :: rest)

end Parse

end

/-- The same program with its identities moved up, and the same errors. -/
theorem parseProgram_shifted (tokens : List Token) (nextId : NodeId) (k : Nat) :
    parseProgram tokens (nextId + k) =
      { tree := recodedStmts (.shift k) (parseProgram tokens nextId).tree
        errors := (parseProgram tokens nextId).errors
        nextId := (parseProgram tokens nextId).nextId + k } := by
  have h := Parse.shifts_program (k := k) (grammarFuel tokens) (Reader.ofTokens tokens nextId)
  have hr : (Reader.ofTokens tokens nextId).shifted k = Reader.ofTokens tokens (nextId + k) := rfl
  unfold parseProgram
  rw [← hr, h]
  cases Parse.program (grammarFuel tokens) (Reader.ofTokens tokens nextId) <;> rfl

end Lox
