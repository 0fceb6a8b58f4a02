import Lox.Proofs.Grammar.Statements
import Lox.Proofs.Syntax.LoopFree

/-!
# Reading without loops

Only `while` and `for` make loops. Where neither word is among the tokens, every rule gives a tree without loops, also after
errors.
-/

namespace Lox

/-- No word among the tokens makes a loop. -/
def Token.Kind.Calm (kind : Token.Kind) : Prop := kind ≠ .keyword .while ∧ kind ≠ .keyword .for

def Reader.Calm (r : Reader) : Prop := ∀ t ∈ r.tokens, t.kind.Calm

theorem Reader.Calm.of_suffix {r r' : Reader} (h : r.Calm) (hs : r'.tokens <:+ r.tokens) : r'.Calm :=
  fun t ht => h t (hs.subset ht)

/-- Among calm tokens the rule gives such a result. -/
def Yields {α : Type} (rule : Parse α) (Q : α → Prop) : Prop := ∀ r : Reader, r.Calm →
  match rule r with
  | .done a r' => r'.Calm ∧ Q a
  | .failed _ r' => r'.Calm
  | .exhausted => True

section
variable {α β : Type} {rule : Parse α} {Q : α → Prop} {T : β → Prop}

namespace Yields

theorem pure {a : α} (h : Q a) : Yields (Pure.pure a) Q := fun _ hr => ⟨hr, h⟩

theorem none : Yields (Pure.pure none) fun found => ∀ a ∈ found, Q a := .pure fun a ha => absurd ha (Option.not_mem_none a)

theorem some {a : α} (h : Q a) : Yields (Pure.pure (some a)) fun found => ∀ b ∈ found, Q b :=
  .pure fun _ hb => Option.mem_some.mp hb ▸ h

theorem exhausted : Yields Run.exhausted Q := fun _ _ => trivial

theorem bind {next : α → Parse β} (h : Yields rule Q) (hn : ∀ a, Q a → Yields (next a) T) : Yields (rule >>= next) T := by
  intro r hr
  have h := h r hr
  rw [Run.bind_apply]
  cases ho : rule r with
  | done a r' => rw [ho] at h; exact hn a h.2 r' h.1
  | failed e r' => rw [ho] at h; exact h
  | exhausted => trivial

theorem ite {c : Prop} [Decidable c] {x y : Parse α} (hx : c → Yields x Q) (hy : ¬ c → Yields y Q) :
    Yields (if c then x else y) Q := by
  split
  · exact hx ‹_›
  · exact hy ‹_›

/-- What is known of the rule says that later tokens are some of those before. -/
theorem of_meets {dry : Reader → Prop} {R : Reader → α → Reader → Prop}
    (h : ∀ r, Meets (fun _ => True) rule r (dry r) (R r)) : Yields rule fun _ => True := by
  intro r hr
  have h := h r fun _ _ _ _ => trivial
  cases ho : rule r with
  | done a r' => rw [ho] at h; exact ⟨hr.of_suffix h.1.tokens, trivial⟩
  | failed e r' => rw [ho] at h; exact hr.of_suffix h.tokens
  | exhausted => trivial

end Yields

namespace Parse

/-! ## Parts of rules -/

theorem yields_skip : Yields skip fun _ => True := fun r hr => ⟨hr.of_suffix (Reader.Later.skip r).tokens, trivial⟩

theorem yields_line : Yields line fun _ => True := .of_meets fun _ => meets_line

theorem yields_kind : Yields kind? fun _ => True := .of_meets fun _ => meets_kind

theorem yields_fail (fault : SyntaxFault) : Yields (fail fault) Q := fun _ hr => hr

theorem yields_freshId : Yields freshId fun _ => True := .of_meets fun _ => meets_freshId

theorem yields_before (m : Mark) : Yields (before m) fun _ => True := .of_meets fun _ => meets_before m

theorem yields_expectMark (m : Mark) (place : Place) : Yields (expectMark m place) fun _ => True :=
  .of_meets fun _ => meets_expectMark m place

theorem yields_expectName (fault : SyntaxFault) : Yields (expectName fault) fun _ => True :=
  .of_meets fun _ => meets_expectName fault

/-- A word that makes a loop is not found. -/
theorem yields_accept (kind : Token.Kind) : Yields (accept kind) fun found => found = true → kind.Calm := by
  intro r hr
  unfold accept
  by_cases hk : r.kind? = some kind
  · rw [if_pos hk]
    refine ⟨hr.of_suffix (Reader.Later.skip r).tokens, fun _ => ?_⟩
    obtain ⟨t, ht, rfl⟩ := Option.map_eq_some_iff.mp hk
    exact hr t (List.mem_of_mem_head? ht)
  · rw [if_neg hk]
    exact ⟨hr, fun h => absurd h Bool.false_ne_true⟩

/-- Only one way is taken where the word would make a loop. -/
theorem yields_noLoop {kind : Token.Kind} (hk : ¬ kind.Calm) {yes no : Parse α} (hn : Yields no Q) :
    Yields (do if ← accept kind then yes else no) Q :=
  (yields_accept kind).bind fun _ hc => .ite (fun ht => absurd (hc ht) hk) fun _ => hn

theorem yields_choice (kind : Token.Kind) {yes no : Parse α} (hy : Yields yes Q) (hn : Yields no Q) :
    Yields (do if ← accept kind then yes else no) Q :=
  (yields_accept kind).bind fun _ _ => .ite (fun _ => hy) fun _ => hn

theorem yields_recover (h : Yields rule Q) : Yields (recover rule) fun found => ∀ a ∈ found, Q a := by
  intro r hr
  have h := h r hr
  unfold recover
  cases ho : rule r with
  | done a r' => rw [ho] at h; exact ⟨h.1, fun _ hb => by cases hb; exact h.2⟩
  | failed e r' =>
    rw [ho] at h
    have hs : synchronize r'.tokens <:+ r'.tokens := (synchronize_suffix _).trans (List.tail_suffix _)
    exact ⟨h.of_suffix hs, fun a ha => absurd ha (Option.not_mem_none a)⟩
  | exhausted => trivial

theorem yields_unlessAt (m : Mark) (h : Yields rule Q) : Yields (unlessAt m rule) fun found => ∀ a ∈ found, Q a := by
  have hat : Yields (atMark m) fun _ => True := yields_kind.bind fun _ _ => .pure trivial
  exact hat.bind fun _ _ => .ite (fun _ => .none) fun _ => h.bind fun _ ha => .some ha

theorem yields_ifAccepted (kind : Token.Kind) (h : Yields rule Q) :
    Yields (ifAccepted kind rule) fun found => ∀ a ∈ found, Q a :=
  yields_choice kind (h.bind fun _ ha => .some ha) .none

theorem yields_atom : Yields atom? fun found => ∀ e ∈ found, e.LoopFree := by
  refine yields_line.bind fun line _ => yields_kind.bind fun kind _ => ?_
  split
  case h_6 | h_8 => exact yields_skip.bind fun _ _ => yields_freshId.bind fun id _ => .some fun _ => trivial
  case h_7 =>
    exact yields_skip.bind fun _ _ => (yields_expectMark _ _).bind fun _ _ => (yields_expectName _).bind fun _ _ =>
      yields_freshId.bind fun id _ => .some fun _ => trivial
  case h_9 => exact .none
  all_goals exact yields_skip.bind fun _ _ => .some fun _ => trivial

theorem yields_assignTo {target value : Expr} (ht : target.LoopFree) (hv : value.LoopFree) (site : Site) (fault : SyntaxFault) :
    Yields (assignTo target value site fault) Expr.LoopFree := by
  unfold assignTo
  split
  · exact yields_freshId.bind fun _ _ => .pure hv
  · exact .pure fun ctx => ⟨ht ctx, hv ctx⟩
  · exact (Yields.of_meets fun _ => meets_reportAt site fault).bind fun _ _ => .pure ht

theorem yields_updateBy (op : Mark) {target operand : Expr} (ht : target.LoopFree) (ho : operand.LoopFree) (site : Site)
    (fault : SyntaxFault) : Yields (updateBy op target operand site fault) Expr.LoopFree := by
  have hold : Yields (reread target) Expr.LoopFree := fun r hr => ⟨hr, ht.fresh r.nextId⟩
  refine hold.bind fun old hold => ?_
  have value : (Expr.binary op site.line old operand).LoopFree := fun ctx => ⟨hold ctx, ho ctx⟩
  exact yields_assignTo ht value site fault

/-! ## The rules -/

def LoopFreeMethods (ms : List Method) : Prop := ∀ m ∈ ms, LoopFreeStmts m.routine.body

/-- Every rule with this fuel, but those of `for`. -/
structure Yielding (fuel : Nat) : Prop where
  expression : Yields (expression fuel) Expr.LoopFree
  operand (level : Nat) : Yields (operand fuel level) Expr.LoopFree
  operatorChain (level : Nat) {left : Expr} : left.LoopFree → Yields (operatorChain fuel level left) Expr.LoopFree
  unary : Yields (unary fuel) Expr.LoopFree
  suffixes {head : Expr} : head.LoopFree → Yields (suffixes fuel head) Expr.LoopFree
  argumentList (count : Nat) : Yields (argumentList fuel count) fun es => ∀ e ∈ es, e.LoopFree
  primary : Yields (primary fuel) Expr.LoopFree
  routineBody (closed : Bool) : Yields (routineBody fuel closed) LoopFreeStmts
  block : Yields (block fuel) LoopFreeStmts
  declarations : Yields (declarations fuel) LoopFreeStmts
  declaration : Yields (declaration fuel) fun found => ∀ st ∈ found, st.LoopFree
  classDeclaration : Yields (classDeclaration fuel) Stmt.LoopFree
  members : Yields (members fuel) fun ms => LoopFreeMethods ms.1 ∧ LoopFreeMethods ms.2
  method : Yields (method fuel) fun m => LoopFreeStmts m.routine.body
  varDeclaration : Yields (varDeclaration fuel) Stmt.LoopFree
  statement : Yields (statement fuel) Stmt.LoopFree
  expressionStatement : Yields (expressionStatement fuel) Stmt.LoopFree
  ifStatement : Yields (ifStatement fuel) Stmt.LoopFree

namespace Yielding

theorem zero : Yielding 0 := by
  constructor
  all_goals intros; exact .exhausted

section
variable {fuel : Nat} (h : Yielding fuel)
include h

/-! ### Expressions -/

theorem expression_succ : Yields (Parse.expression (fuel + 1)) Expr.LoopFree := by
  rw [Parse.expression]
  refine (h.operand 0).bind fun target ht => (Yields.of_meets fun _ => meets_acceptAssignment).bind fun found _ => ?_
  split
  · exact .pure ht
  · exact h.expression.bind fun value hv => yields_assignTo ht hv _ _
  · exact h.expression.bind fun value hv => yields_updateBy _ ht hv _ _

theorem operand_succ (level : Nat) : Yields (Parse.operand (fuel + 1) level) Expr.LoopFree := by
  rw [Parse.operand]
  exact .ite (fun _ => (h.operand (level + 1)).bind fun _ hl => h.operatorChain level hl) fun _ => h.unary

theorem operatorChain_succ (level : Nat) {left : Expr} (hl : left.LoopFree) :
    Yields (Parse.operatorChain (fuel + 1) level left) Expr.LoopFree := by
  rw [Parse.operatorChain]
  refine (Yields.of_meets fun _ => meets_acceptConnective level).bind fun found _ => ?_
  split
  · exact .pure hl
  · rename_i c line
    refine (h.operand (level + 1)).bind fun right hr => h.operatorChain level fun ctx => ?_
    cases c <;> exact ⟨hl ctx, hr ctx⟩

theorem unary_succ : Yields (Parse.unary (fuel + 1)) Expr.LoopFree := by
  rw [Parse.unary]
  have one : (Expr.literal (.number 1)).LoopFree := fun _ => trivial
  refine (Yields.of_meets fun _ => meets_acceptLeading).bind fun found _ => ?_
  split
  · exact h.unary.bind fun _ he => .pure he
  · exact h.unary.bind fun _ ht => yields_updateBy _ ht one _ _
  · exact h.primary.bind fun _ hh => h.suffixes hh

theorem suffixes_succ {head : Expr} (hh : head.LoopFree) : Yields (Parse.suffixes (fuel + 1) head) Expr.LoopFree := by
  rw [Parse.suffixes]
  refine yields_choice _ ?_ (yields_choice _ ?_ (.pure hh))
  · refine (yields_unlessAt _ (h.argumentList 0)).bind fun arguments ha => (yields_expectMark _ _).bind fun line _ => ?_
    refine h.suffixes fun ctx => ⟨hh ctx, everyExprs_of_forall ?_ ctx⟩
    cases arguments with
    | none => exact List.forall_mem_nil _
    | some es => exact ha es rfl
  · exact (yields_expectName _).bind fun name _ => h.suffixes hh

theorem argumentList_succ (count : Nat) :
    Yields (Parse.argumentList (fuel + 1) count) fun es => ∀ e ∈ es, e.LoopFree := by
  rw [Parse.argumentList]
  refine (Yields.of_meets fun _ => meets_checkCount count _).bind fun _ _ => h.expression.bind fun e he => ?_
  refine yields_choice _ ((h.argumentList (count + 1)).bind fun es hes => .pure ?_) (.pure ?_)
  · exact List.forall_mem_cons.mpr ⟨he, hes⟩
  · exact List.forall_mem_singleton.mpr he

theorem primary_succ : Yields (Parse.primary (fuel + 1)) Expr.LoopFree := by
  rw [Parse.primary]
  refine yields_atom.bind fun found hfound => ?_
  cases found with
  | some e => exact .pure (hfound e rfl)
  | none =>
    refine yields_line.bind fun line _ => yields_choice _ ?_ (yields_choice _ ?_ (yields_fail _))
    · exact h.expression.bind fun _ he => (yields_expectMark _ _).bind fun _ _ => .pure he
    · refine (yields_expectMark _ _).bind fun _ _ => (Yields.of_meets fun r => meets_parameters fuel r).bind fun params _ => ?_
      exact (h.routineBody false).bind fun body hbody => .pure fun ctx => hbody (ctx.enter .function)

/-! ### Functions and classes -/

theorem routineBody_succ (closed : Bool) : Yields (Parse.routineBody (fuel + 1) closed) LoopFreeStmts := by
  rw [Parse.routineBody]
  refine yields_line.bind fun line _ => yields_choice _ h.block (yields_choice _ ?_ (yields_fail _))
  refine h.expression.bind fun e he => (Yields.of_meets fun _ => meets_endBody closed).bind fun _ _ => .pure (.single ?_)
  exact .returns _ _ fun _ hb => Option.mem_some.mp hb ▸ he

theorem block_succ : Yields (Parse.block (fuel + 1)) LoopFreeStmts := by
  rw [Parse.block]
  exact h.declarations.bind fun _ hbody => (yields_expectMark _ _).bind fun _ _ => .pure hbody

theorem declarations_succ : Yields (Parse.declarations (fuel + 1)) LoopFreeStmts := by
  rw [Parse.declarations]
  refine (yields_before _).bind fun _ _ => .ite (fun _ => ?_) fun _ => .pure fun _ => trivial
  refine h.declaration.bind fun first hf => h.declarations.bind fun rest hr => .pure ?_
  cases first with
  | none => exact hr
  | some st => exact .cons (hf st rfl) hr

theorem declaration_succ : Yields (Parse.declaration (fuel + 1)) fun found => ∀ st ∈ found, st.LoopFree := by
  rw [Parse.declaration]
  refine yields_recover (yields_choice _ h.classDeclaration ?_)
  have hfun : Yields atFunctionDeclaration fun _ => True := .of_meets fun _ => meets_read _
  refine hfun.bind fun _ _ => .ite (fun _ => ?_) fun _ => yields_choice _ h.varDeclaration h.statement
  refine yields_skip.bind fun _ _ => (yields_expectName _).bind fun name _ => (yields_expectMark _ _).bind fun _ _ => ?_
  refine (Yields.of_meets fun r => meets_parameters fuel r).bind fun params _ => ?_
  exact (h.routineBody true).bind fun body hbody => .pure (.funDecl name params hbody)

theorem classDeclaration_succ : Yields (Parse.classDeclaration (fuel + 1)) Stmt.LoopFree := by
  rw [Parse.classDeclaration]
  refine (yields_expectName _).bind fun name _ => (Yields.of_meets fun _ => meets_superclass).bind fun superclass _ => ?_
  refine (yields_expectMark _ _).bind fun _ _ => h.members.bind fun found hfound => (yields_expectMark _ _).bind fun _ _ => ?_
  obtain ⟨methods, statics⟩ := found
  exact .pure (.classDecl name superclass hfound.1 hfound.2)

theorem members_succ : Yields (Parse.members (fuel + 1)) fun ms => LoopFreeMethods ms.1 ∧ LoopFreeMethods ms.2 := by
  rw [Parse.members]
  refine (yields_before _).bind fun _ _ => .ite (fun _ => ?_) fun _ => .pure ⟨List.forall_mem_nil _, List.forall_mem_nil _⟩
  refine (yields_accept _).bind fun isStatic _ => h.method.bind fun m hm => h.members.bind fun found hfound => ?_
  obtain ⟨methods, statics⟩ := found
  cases isStatic with
  | true => exact .pure ⟨hfound.1, List.forall_mem_cons.mpr ⟨hm, hfound.2⟩⟩
  | false => exact .pure ⟨List.forall_mem_cons.mpr ⟨hm, hfound.1⟩, hfound.2⟩

theorem method_succ : Yields (Parse.method (fuel + 1)) fun m => LoopFreeStmts m.routine.body := by
  rw [Parse.method]
  have hparams : Yields (parameters fuel) fun _ => True := .of_meets fun r => meets_parameters fuel r
  refine (yields_expectName _).bind fun name _ => (yields_ifAccepted _ hparams).bind fun params _ => ?_
  exact (h.routineBody true).bind fun body hbody => .pure hbody

/-! ### Statements -/

theorem varDeclaration_succ : Yields (Parse.varDeclaration (fuel + 1)) Stmt.LoopFree := by
  rw [Parse.varDeclaration]
  refine (yields_expectName _).bind fun name _ => (yields_ifAccepted _ h.expression).bind fun init hinit => ?_
  exact (yields_expectMark _ _).bind fun _ _ => .pure (.varDecl name hinit)

/-- The two rules that make loops are not taken. -/
theorem statement_succ : Yields (Parse.statement (fuel + 1)) Stmt.LoopFree := by
  rw [Parse.statement]
  refine yields_line.bind fun line _ => yields_noLoop (fun hc => hc.2 rfl) (yields_choice _ h.ifStatement ?_)
  refine yields_noLoop (fun hc => hc.1 rfl) (yields_choice _ ?_ (yields_choice _ ?_ ?_))
  · exact (yields_unlessAt _ h.expression).bind fun value hv => (yields_expectMark _ _).bind fun _ _ => .pure (.returns _ _ hv)
  · exact (yields_expectMark _ _).bind fun _ _ => .pure (.breaks line)
  refine yields_choice _ (h.block.bind fun body hbody => .pure (.block hbody)) (yields_choice _ ?_ h.expressionStatement)
  exact h.expression.bind fun e he => (yields_expectMark _ _).bind fun _ _ => .pure (.print he)

theorem expressionStatement_succ : Yields (Parse.expressionStatement (fuel + 1)) Stmt.LoopFree := by
  rw [Parse.expressionStatement]
  exact h.expression.bind fun e he => (yields_expectMark _ _).bind fun _ _ => .pure (.expr he)

theorem ifStatement_succ : Yields (Parse.ifStatement (fuel + 1)) Stmt.LoopFree := by
  rw [Parse.ifStatement]
  refine (yields_expectMark _ _).bind fun _ _ => h.expression.bind fun c hc => (yields_expectMark _ _).bind fun _ _ => ?_
  exact h.statement.bind fun st hst => (yields_ifAccepted _ h.statement).bind fun st' hst' => .pure (.branch hc hst hst')

end

end Yielding

theorem yielding : ∀ fuel, Yielding fuel
  | 0 => .zero
  | fuel + 1 =>
    have h := yielding fuel
    { expression := h.expression_succ
      operand := h.operand_succ
      operatorChain := h.operatorChain_succ
      unary := h.unary_succ
      suffixes := h.suffixes_succ
      argumentList := h.argumentList_succ
      primary := h.primary_succ
      routineBody := h.routineBody_succ
      block := h.block_succ
      declarations := h.declarations_succ
      declaration := h.declaration_succ
      classDeclaration := h.classDeclaration_succ
      members := h.members_succ
      method := h.method_succ
      varDeclaration := h.varDeclaration_succ
      statement := h.statement_succ
      expressionStatement := h.expressionStatement_succ
      ifStatement := h.ifStatement_succ }

theorem yields_program : ∀ fuel, Yields (program fuel) LoopFreeStmts
  | 0 => .exhausted
  | fuel + 1 => by
    rw [program]
    refine yields_kind.bind fun kind _ => ?_
    cases kind with
    | none => exact .pure fun _ => trivial
    | some kind =>
      refine (yielding fuel).declaration.bind fun first hf => (yields_program fuel).bind fun rest hr => .pure ?_
      cases first with
      | none => exact hr
      | some st => exact .cons (hf st rfl) hr

end Parse

end

/-- The program of such tokens has no loop. -/
theorem parseProgram_loopFree {tokens : List Token} (h : ∀ t ∈ tokens, t.kind.Calm) (nextId : NodeId) :
    LoopFreeStmts (parseProgram tokens nextId).tree := by
  have hr : (Reader.ofTokens tokens nextId).Calm := fun t ht => h t ((List.takeWhile_prefix _).subset ht)
  have hy := Parse.yields_program (grammarFuel tokens) _ hr
  unfold parseProgram
  cases ho : Parse.program (grammarFuel tokens) (Reader.ofTokens tokens nextId) with
  | done tree r => rw [ho] at hy; exact hy.2
  | failed e r => exact fun _ => trivial
  | exhausted => exact fun _ => trivial

end Lox
