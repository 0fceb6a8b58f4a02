import Lox.Syntax.Grammar

/-!
# Reading with more fuel

Fuel does not decide what is read. A rule that comes to an end with some fuel does the same with more of it.
-/

namespace Lox

/-- Where `rule` comes to an end, `rule'` does the same. -/
def Steady {α : Type} (rule rule' : Parse α) : Prop := ∀ r, rule r ≠ .exhausted → rule' r = rule r

section
variable {α β : Type} {rule rule' : Parse α}

namespace Steady

theorem refl (rule : Parse α) : Steady rule rule := fun _ _ => rfl

theorem exhausted (rule : Parse α) : Steady Run.exhausted rule := fun _ h => absurd rfl h

theorem bind {next next' : α → Parse β} (h : Steady rule rule') (hn : ∀ a, Steady (next a) (next' a)) :
    Steady (rule >>= next) (rule' >>= next') := by
  intro r hr
  rw [Run.bind_apply] at hr
  have hfirst : rule r ≠ .exhausted := fun he => hr (by rw [he])
  rw [Run.bind_apply, Run.bind_apply, h r hfirst]
  cases ho : rule r with
  | done a r' => rw [ho] at hr; exact hn a r' hr
  | failed e r' => rfl
  | exhausted => rfl

/-- A first part that needs no fuel. -/
theorem after {next next' : α → Parse β} (hn : ∀ a, Steady (next a) (next' a)) : Steady (rule >>= next) (rule >>= next') :=
  (refl rule).bind hn

/-- A last part that needs no fuel. -/
theorem before (h : Steady rule rule') (next : α → Parse β) : Steady (rule >>= next) (rule' >>= next) :=
  h.bind fun a => refl (next a)

theorem ite {c : Prop} [Decidable c] {yes no yes' no' : Parse α} (hy : Steady yes yes') (hn : Steady no no') :
    Steady (if c then yes else no) (if c then yes' else no') := by
  split
  · exact hy
  · exact hn

end Steady

namespace Parse

/-! ## Parts of rules -/

theorem steady_recover (h : Steady rule rule') : Steady (recover rule) (recover rule') := by
  intro r hr
  unfold recover at hr ⊢
  have hrule : rule r ≠ .exhausted := fun he => hr (by rw [he])
  rw [h r hrule]

theorem steady_unlessAt (m : Mark) (h : Steady rule rule') : Steady (unlessAt m rule) (unlessAt m rule') :=
  .after fun _ => .ite (.refl _) (h.before _)

theorem steady_ifAccepted (kind : Token.Kind) (h : Steady rule rule') : Steady (ifAccepted kind rule) (ifAccepted kind rule') :=
  .after fun _ => .ite (h.before _) (.refl _)

theorem steady_parameterList : ∀ {fuel fuel' : Nat}, fuel ≤ fuel' → ∀ count,
    Steady (parameterList fuel count) (parameterList fuel' count)
  | 0, _, _, _ => .exhausted _
  | fuel + 1, fuel' + 1, h, count => by
    rw [parameterList, parameterList]
    refine .after fun _ => .after fun param => .after fun _ => .ite ?_ (.refl _)
    exact (steady_parameterList (Nat.le_of_succ_le_succ h) (count + 1)).before _

theorem steady_parameters {fuel fuel' : Nat} (h : fuel ≤ fuel') : Steady (parameters fuel) (parameters fuel') :=
  (steady_unlessAt _ (steady_parameterList h 0)).before _

/-! ## The rules -/

/-- Every rule that comes to an end with the first fuel does the same with the second one. -/
structure Steadies (fuel fuel' : Nat) : Prop where
  le : fuel ≤ fuel'
  expression : Steady (expression fuel) (expression fuel')
  operand (level : Nat) : Steady (operand fuel level) (operand fuel' level)
  operatorChain (level : Nat) (left : Expr) : Steady (operatorChain fuel level left) (operatorChain fuel' level left)
  unary : Steady (unary fuel) (unary fuel')
  suffixes (head : Expr) : Steady (suffixes fuel head) (suffixes fuel' head)
  argumentList (count : Nat) : Steady (argumentList fuel count) (argumentList fuel' count)
  primary : Steady (primary fuel) (primary fuel')
  routineBody (closed : Bool) : Steady (routineBody fuel closed) (routineBody fuel' closed)
  block : Steady (block fuel) (block fuel')
  declarations : Steady (declarations fuel) (declarations fuel')
  declaration : Steady (declaration fuel) (declaration fuel')
  classDeclaration : Steady (classDeclaration fuel) (classDeclaration fuel')
  members : Steady (members fuel) (members fuel')
  method : Steady (method fuel) (method fuel')
  varDeclaration : Steady (varDeclaration fuel) (varDeclaration fuel')
  statement : Steady (statement fuel) (statement fuel')
  expressionStatement : Steady (expressionStatement fuel) (expressionStatement fuel')
  ifStatement : Steady (ifStatement fuel) (ifStatement fuel')
  forStatement : Steady (forStatement fuel) (forStatement fuel')
  forInitializer : Steady (forInitializer fuel) (forInitializer fuel')

namespace Steadies

theorem zero (fuel' : Nat) : Steadies 0 fuel' where
  le := Nat.zero_le _
  expression := .exhausted _
  operand _ := .exhausted _
  operatorChain _ _ := .exhausted _
  unary := .exhausted _
  suffixes _ := .exhausted _
  argumentList _ := .exhausted _
  primary := .exhausted _
  routineBody _ := .exhausted _
  block := .exhausted _
  declarations := .exhausted _
  declaration := .exhausted _
  classDeclaration := .exhausted _
  members := .exhausted _
  method := .exhausted _
  varDeclaration := .exhausted _
  statement := .exhausted _
  expressionStatement := .exhausted _
  ifStatement := .exhausted _
  forStatement := .exhausted _
  forInitializer := .exhausted _

section
variable {fuel fuel' : Nat} (h : Steadies fuel fuel')
include h

/-! ### Expressions -/

theorem expression_succ : Steady (Parse.expression (fuel + 1)) (Parse.expression (fuel' + 1)) := by
  rw [Parse.expression, Parse.expression]
  refine (h.operand 0).bind fun target => .after fun found => ?_
  rcases found with _ | ⟨_ | op, site⟩
  case none => exact .refl _
  case some.store => exact h.expression.before _
  case some.combine => exact h.expression.before _

theorem operand_succ (level : Nat) : Steady (Parse.operand (fuel + 1) level) (Parse.operand (fuel' + 1) level) := by
  rw [Parse.operand, Parse.operand]
  exact .ite ((h.operand (level + 1)).bind fun left => h.operatorChain level left) h.unary

theorem operatorChain_succ (level : Nat) (left : Expr) :
    Steady (Parse.operatorChain (fuel + 1) level left) (Parse.operatorChain (fuel' + 1) level left) := by
  rw [Parse.operatorChain, Parse.operatorChain]
  refine .after fun found => ?_
  rcases found with _ | ⟨c, line⟩
  case none => exact .refl _
  case some => exact (h.operand (level + 1)).bind fun right => h.operatorChain level _

theorem unary_succ : Steady (Parse.unary (fuel + 1)) (Parse.unary (fuel' + 1)) := by
  rw [Parse.unary, Parse.unary]
  refine .after fun found => ?_
  rcases found with _ | ⟨op | op, site⟩
  case some.operator => exact h.unary.before _
  case some.increment => exact h.unary.before _
  case none => exact h.primary.bind fun head => h.suffixes head

theorem suffixes_succ (head : Expr) : Steady (Parse.suffixes (fuel + 1) head) (Parse.suffixes (fuel' + 1) head) := by
  rw [Parse.suffixes, Parse.suffixes]
  refine .after fun _ => .ite ?_ (.after fun _ => .ite ?_ (.refl _))
  · exact (steady_unlessAt _ (h.argumentList 0)).bind fun arguments => .after fun line => h.suffixes _
  · exact .after fun name => h.suffixes _

theorem argumentList_succ (count : Nat) :
    Steady (Parse.argumentList (fuel + 1) count) (Parse.argumentList (fuel' + 1) count) := by
  rw [Parse.argumentList, Parse.argumentList]
  refine .after fun _ => h.expression.bind fun e => .after fun _ => .ite ?_ (.refl _)
  exact (h.argumentList (count + 1)).before _

theorem primary_succ : Steady (Parse.primary (fuel + 1)) (Parse.primary (fuel' + 1)) := by
  rw [Parse.primary, Parse.primary]
  refine .after fun found => ?_
  cases found with
  | some e => exact .refl _
  | none =>
    refine .after fun line => .after fun _ => .ite (h.expression.before _) (.after fun _ => .ite ?_ (.refl _))
    exact .after fun _ => (steady_parameters h.le).bind fun params => (h.routineBody false).before _

/-! ### Functions and classes -/

theorem routineBody_succ (closed : Bool) :
    Steady (Parse.routineBody (fuel + 1) closed) (Parse.routineBody (fuel' + 1) closed) := by
  rw [Parse.routineBody, Parse.routineBody]
  exact .after fun line => .after fun _ => .ite h.block (.after fun _ => .ite (h.expression.before _) (.refl _))

theorem block_succ : Steady (Parse.block (fuel + 1)) (Parse.block (fuel' + 1)) := by
  rw [Parse.block, Parse.block]
  exact h.declarations.before _

theorem declarations_succ : Steady (Parse.declarations (fuel + 1)) (Parse.declarations (fuel' + 1)) := by
  rw [Parse.declarations, Parse.declarations]
  exact .after fun _ => .ite (h.declaration.bind fun first => h.declarations.before _) (.refl _)

theorem declaration_succ : Steady (Parse.declaration (fuel + 1)) (Parse.declaration (fuel' + 1)) := by
  rw [Parse.declaration, Parse.declaration]
  refine steady_recover (.after fun _ => .ite h.classDeclaration (.after fun _ => .ite ?_ ?_))
  · exact .after fun _ => .after fun name => .after fun _ => (steady_parameters h.le).bind fun params =>
      (h.routineBody true).before _
  · exact .after fun _ => .ite h.varDeclaration h.statement

theorem classDeclaration_succ : Steady (Parse.classDeclaration (fuel + 1)) (Parse.classDeclaration (fuel' + 1)) := by
  rw [Parse.classDeclaration, Parse.classDeclaration]
  exact .after fun name => .after fun superclass => .after fun _ => h.members.before _

theorem members_succ : Steady (Parse.members (fuel + 1)) (Parse.members (fuel' + 1)) := by
  rw [Parse.members, Parse.members]
  exact .after fun _ => .ite (.after fun isStatic => h.method.bind fun m => h.members.before _) (.refl _)

theorem method_succ : Steady (Parse.method (fuel + 1)) (Parse.method (fuel' + 1)) := by
  rw [Parse.method, Parse.method]
  exact .after fun name => (steady_ifAccepted _ (steady_parameters h.le)).bind fun params => (h.routineBody true).before _

/-! ### Statements -/

theorem varDeclaration_succ : Steady (Parse.varDeclaration (fuel + 1)) (Parse.varDeclaration (fuel' + 1)) := by
  rw [Parse.varDeclaration, Parse.varDeclaration]
  exact .after fun name => (steady_ifAccepted _ h.expression).before _

theorem statement_succ : Steady (Parse.statement (fuel + 1)) (Parse.statement (fuel' + 1)) := by
  rw [Parse.statement, Parse.statement]
  refine .after fun line => .after fun _ => .ite h.forStatement (.after fun _ => .ite h.ifStatement (.after fun _ => .ite ?_ ?_))
  · exact .after fun _ => h.expression.bind fun condition => .after fun _ => h.statement.before _
  refine .after fun _ => .ite ((steady_unlessAt _ h.expression).before _) (.after fun _ => .ite (.refl _) ?_)
  exact .after fun _ => .ite (h.block.before _) (.after fun _ => .ite (h.expression.before _) h.expressionStatement)

theorem expressionStatement_succ : Steady (Parse.expressionStatement (fuel + 1)) (Parse.expressionStatement (fuel' + 1)) := by
  rw [Parse.expressionStatement, Parse.expressionStatement]
  exact h.expression.before _

theorem ifStatement_succ : Steady (Parse.ifStatement (fuel + 1)) (Parse.ifStatement (fuel' + 1)) := by
  rw [Parse.ifStatement, Parse.ifStatement]
  exact .after fun _ => h.expression.bind fun condition => .after fun _ => h.statement.bind fun thenBranch =>
    (steady_ifAccepted _ h.statement).before _

theorem forStatement_succ : Steady (Parse.forStatement (fuel + 1)) (Parse.forStatement (fuel' + 1)) := by
  rw [Parse.forStatement, Parse.forStatement]
  refine .after fun _ => h.forInitializer.bind fun initializer => (steady_unlessAt _ h.expression).bind fun condition => ?_
  exact .after fun _ => (steady_unlessAt _ h.expression).bind fun increment => .after fun _ => h.statement.before _

theorem forInitializer_succ : Steady (Parse.forInitializer (fuel + 1)) (Parse.forInitializer (fuel' + 1)) := by
  rw [Parse.forInitializer, Parse.forInitializer]
  exact .after fun _ => .ite (.refl _) (.after fun _ => .ite (h.varDeclaration.before _) (h.expressionStatement.before _))

end

end Steadies

theorem steadies : ∀ {fuel fuel' : Nat}, fuel ≤ fuel' → Steadies fuel fuel'
  | 0, fuel', _ => .zero fuel'
  | _ + 1, _ + 1, hle =>
    have h := steadies (Nat.le_of_succ_le_succ hle)
    { le := hle
      expression := h.expression_succ
      operand := h.operand_succ
      operatorChain := h.operatorChain_succ
      unary := h.unary_succ
      suffixes := h.suffixes_succ
      argumentList := h.argumentList_succ
      primary := h.primary_succ
      routineBody := h.routineBody_succ
      block := h.block_succ
      declarations := h.declarations_succ
      declaration := h.declaration_succ
      classDeclaration := h.classDeclaration_succ
      members := h.members_succ
      method := h.method_succ
      varDeclaration := h.varDeclaration_succ
      statement := h.statement_succ
      expressionStatement := h.expressionStatement_succ
      ifStatement := h.ifStatement_succ
      forStatement := h.forStatement_succ
      forInitializer := h.forInitializer_succ }

/-! ## Whole inputs -/

theorem steady_program : ∀ {fuel fuel' : Nat}, fuel ≤ fuel' → Steady (program fuel) (program fuel')
  | 0, _, _ => .exhausted _
  | fuel + 1, fuel' + 1, hle => by
    rw [program, program]
    refine .after fun kind => ?_
    cases kind with
    | none => exact .refl _
    | some kind =>
      have hle := Nat.le_of_succ_le_succ hle
      exact (steadies hle).declaration.bind fun first => (steady_program hle).before _

theorem steady_wholeExpression {fuel fuel' : Nat} (h : fuel ≤ fuel') : Steady (wholeExpression fuel) (wholeExpression fuel') :=
  (steadies h).expression.before _

end Parse

end

end Lox
