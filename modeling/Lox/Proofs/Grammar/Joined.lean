import Lox.Proofs.Grammar.Carried
import Lox.Proofs.Source.Joined

/-!
# Programs inside a larger text

Every rule of the grammar reads the same where the text stands in a larger one. So the program of
two texts, one after the other, is the program of the first and then that of the second.
-/

namespace Lox

namespace Parse

open Reader

section
variable {P : Name → Prop}

/-! The rules that go on from an expression, whatever that is. -/

theorem meets_operatorChain : ∀ (fuel level : Nat) (left : Expr) (r : Reader),
    Meets P (operatorChain fuel level left) r (fuel < r.need 1) fun _ _ => True
  | 0, _, _, _ => .exhausted (Nat.lt_of_lt_of_le Nat.zero_lt_one (Nat.le_add_left ..))
  | fuel + 1, level, left, r => by
    rw [operatorChain]
    refine .first (meets_acceptConnective level) fun found r₁ _ hc => ?_
    split
    · exact .pure trivial
    · obtain ⟨-, hlt⟩ := hc _ rfl
      refine ((rules P fuel).operand (level + 1) r₁).bind (need_of_read hlt ?_ · (by decide)) fun right r₂ h₂ hr => ?_
      · unfold Connective.levels rulesPerToken
        omega
      · have hl := hr.1
        exact (meets_operatorChain fuel level _ r₂).imp (need_of_read (Nat.lt_trans hl hlt) (by decide) · (by decide))
          fun _ _ _ => id

theorem meets_suffixes : ∀ (fuel : Nat) (head : Expr) (r : Reader),
    Meets P (suffixes fuel head) r (fuel < r.need 1) fun _ _ => True
  | 0, _, _ => .exhausted (Nat.lt_of_lt_of_le Nat.zero_lt_one (Nat.le_add_left ..))
  | fuel + 1, head, r => by
    rw [suffixes]
    refine .first (meets_accept _) fun _ r₁ h₁ hf => .ite (fun ht => ?_) fun _ => ?_
    · refine (meets_unlessAt _ ((rules _ fuel).argumentList 0 r₁)).bind (need_of_read (hf ht) (by decide) · (by decide)) ?_
      intro arguments r₂ h₂ _
      refine .first (meets_expectMark _ _) fun _ r₃ h₃ _ => ?_
      have hlt : r₃.tokens.length < r.tokens.length := Nat.lt_of_le_of_lt (h₂.trans h₃).length_le (hf ht)
      exact (meets_suffixes fuel _ r₃).imp (need_of_read hlt (by decide) · (by decide)) fun _ _ _ => id
    · refine .first (meets_accept _) fun _ r₂ h₂ hf => .ite (fun ht => ?_) fun _ => .pure trivial
      refine .first (meets_expectName _) fun _ r₃ h₃ _ => ?_
      have hlt : r₃.tokens.length < r.tokens.length :=
        Nat.lt_of_le_of_lt h₃.length_le (Nat.lt_of_lt_of_le (hf ht) h₁.length_le)
      exact (meets_suffixes fuel _ r₃).imp (need_of_read hlt (by decide) · (by decide)) fun _ _ _ => id

end

theorem choice_of_ne {α : Type} {r : Reader} {kind : Token.Kind} {yes no : Parse α} (h : r.kind? ≠ some kind) :
    (do if ← accept kind then yes else no : Parse α) r = no r := by
  rw [Run.bind_apply, accept, if_neg h]
  rfl

theorem choice_of_eq {α : Type} {r : Reader} {kind : Token.Kind} {yes no : Parse α} (h : r.kind? = some kind) :
    (do if ← accept kind then yes else no : Parse α) r = yes r.skip := by
  rw [Run.bind_of_done (show accept kind r = .done true r.skip from if_pos h)]
  rfl

theorem statement_at_fun {r : Reader} (hk : r.kind? = some (.keyword .fun)) (fuel : Nat) :
    statement (fuel + 1) r = expressionStatement fuel r := by
  rw [statement, Run.bind_apply]
  simp only [line, Run.read, acceptKeyword, acceptMark]
  simp (disch := simp [hk]) only [choice_of_ne]

/-- A single token is no statement with an expression. -/
theorem length_of_expressionStatement {fuel : Nat} {r r' : Reader} {st : Stmt}
    (h : expressionStatement fuel r = .done st r') : 1 < r.tokens.length := by
  cases fuel with
  | zero => cases h
  | succ fuel =>
    have he := (rules (fun _ => True) fuel).expression r fun _ _ _ _ => trivial
    rw [expressionStatement] at h
    obtain ⟨e, r₁, hr, hrest⟩ := Run.of_bind_done h
    rw [hr] at he
    have ha : r₁.Ahead := (hungry_expectMark _ _).bind _ r₁ st r' hrest
    exact Nat.lt_of_le_of_lt (List.length_pos_iff.mpr ha) he.2.1

variable (s : Setting)

/-- The rules with the first fuel read what those with the second one read in the setting. -/
structure Carrying (fuel fuel' : Nat) : Prop where
  expression : ∀ r, Carries s (Expr.relined s.lineOf) Ahead (expression fuel) (expression fuel') r
  operand : ∀ level r, Carries s (Expr.relined s.lineOf) Ahead (operand fuel level) (operand fuel' level) r
  operatorChain : ∀ level left r, Carries s (Expr.relined s.lineOf) Ahead (operatorChain fuel level left)
    (operatorChain fuel' level (left.relined s.lineOf)) r
  unary : ∀ r, Carries s (Expr.relined s.lineOf) Ahead (unary fuel) (unary fuel') r
  suffixes : ∀ head r, Carries s (Expr.relined s.lineOf) Ahead (suffixes fuel head) (suffixes fuel' (head.relined s.lineOf)) r
  argumentList : ∀ count r, Carries s (relinedExprs s.lineOf) Ahead (argumentList fuel count) (argumentList fuel' count) r
  primary : ∀ r, Carries s (Expr.relined s.lineOf) Ahead (primary fuel) (primary fuel') r
  closedBody : ∀ r, Carries s (relinedStmts s.lineOf) Carries.Closed (routineBody fuel true) (routineBody fuel' true) r
  routineBody : ∀ closed r, Carries s (relinedStmts s.lineOf) Ahead (routineBody fuel closed) (routineBody fuel' closed) r
  block : ∀ r, Carries s (relinedStmts s.lineOf) Carries.Closed (block fuel) (block fuel') r
  declarations : ∀ r, Carries s (relinedStmts s.lineOf) Ahead (declarations fuel) (declarations fuel') r
  declaration : ∀ r, r.Ahead →
    Carries s (Option.map (Stmt.relined s.lineOf)) Carries.Closed (declaration fuel) (declaration fuel') r
  classDeclaration : ∀ r, Carries s (Stmt.relined s.lineOf) Carries.Closed (classDeclaration fuel) (classDeclaration fuel') r
  members : ∀ r, Carries s (Prod.map (relinedMethods s.lineOf) (relinedMethods s.lineOf)) Ahead (members fuel)
    (members fuel') r
  method : ∀ r, Carries s (Method.relined s.lineOf) Ahead (method fuel) (method fuel') r
  varDeclaration : ∀ r, Carries s (Stmt.relined s.lineOf) Carries.Closed (varDeclaration fuel) (varDeclaration fuel') r
  statement : ∀ r, Carries s (Stmt.relined s.lineOf) Carries.Closed (statement fuel) (statement fuel') r
  expressionStatement : ∀ r,
    Carries s (Stmt.relined s.lineOf) Carries.Closed (expressionStatement fuel) (expressionStatement fuel') r
  ifStatement : ∀ r, Carries s (Stmt.relined s.lineOf) Carries.Closed (ifStatement fuel) (ifStatement fuel') r
  forStatement : ∀ r, Carries s (Stmt.relined s.lineOf) Carries.Closed (forStatement fuel) (forStatement fuel') r
  forInitializer : ∀ r, Carries s (Option.map (Stmt.relined s.lineOf)) Ahead (forInitializer fuel) (forInitializer fuel') r

namespace Carrying

variable {s} {fuel fuel' : Nat}

/-! ## Without fuel -/

theorem zero (fuel' : Nat) : Carrying s 0 fuel' := by
  constructor
  all_goals intros; exact .exhausted _

theorem dry (fuel : Nat) : Carrying s fuel 0 where
  expression r := .of_exhausted ((rules _ fuel).expression r)
  operand level r := .of_exhausted ((rules _ fuel).operand level r)
  operatorChain level left r := .of_exhausted (meets_operatorChain fuel level left r)
  unary r := .of_exhausted ((rules _ fuel).unary r)
  suffixes head r := .of_exhausted (meets_suffixes fuel head r)
  argumentList count r := .of_exhausted ((rules _ fuel).argumentList count r)
  primary r := .of_exhausted ((rules _ fuel).primary r)
  routineBody closed r := .of_exhausted ((rules _ fuel).routineBody closed r)
  closedBody r := .of_exhausted ((rules _ fuel).routineBody true r)
  block r := .of_exhausted ((rules _ fuel).block r)
  declarations r := .of_exhausted ((rules _ fuel).declarations r)
  declaration r h := .of_exhausted ((rules _ fuel).declaration r h)
  classDeclaration r := .of_exhausted ((rules _ fuel).classDeclaration r)
  members r := .of_exhausted ((rules _ fuel).members r)
  method r := .of_exhausted ((rules _ fuel).method r)
  varDeclaration r := .of_exhausted ((rules _ fuel).varDeclaration r)
  statement r := .of_exhausted ((rules _ fuel).statement r)
  expressionStatement r := .of_exhausted ((rules _ fuel).expressionStatement r)
  ifStatement r := .of_exhausted ((rules _ fuel).ifStatement r)
  forStatement r := .of_exhausted ((rules _ fuel).forStatement r)
  forInitializer r := .of_exhausted ((rules _ fuel).forInitializer r)

/-! ## Expressions -/

section
variable (h : Carrying s fuel fuel') (r : Reader)
include h

theorem expression_succ :
    Carries s (Expr.relined s.lineOf) Ahead (Parse.expression (fuel + 1)) (Parse.expression (fuel' + 1)) r := by
  rw [Parse.expression, Parse.expression]
  refine .ahead (h.operand 0 r) fun target r₁ _ _ => .ahead looks_acceptAssignment fun found r₂ _ _ => ?_
  rcases found with _ | ⟨_ | op, site⟩
  · exact .pure target
  · exact .ahead (h.expression r₂) fun value _ _ _ => carries_assignTo target value site _
  · exact .ahead (h.expression r₂) fun value _ _ _ => carries_updateBy op target value site _

theorem operand_succ (level : Nat) : Carries s (Expr.relined s.lineOf) Ahead (Parse.operand (fuel + 1) level)
    (Parse.operand (fuel' + 1) level) r := by
  rw [Parse.operand, Parse.operand]
  refine .ite Iff.rfl (fun _ => ?_) fun _ => h.unary r
  exact .ahead (h.operand (level + 1) r) fun left r₁ _ _ => h.operatorChain level left r₁

theorem operatorChain_succ (level : Nat) (left : Expr) :
    Carries s (Expr.relined s.lineOf) Ahead (Parse.operatorChain (fuel + 1) level left)
      (Parse.operatorChain (fuel' + 1) level (left.relined s.lineOf)) r := by
  rw [Parse.operatorChain, Parse.operatorChain]
  refine .ahead (looks_acceptConnective level) fun found r₁ _ _ => ?_
  rcases found with _ | ⟨c, line⟩
  · exact .pure left
  · refine .ahead (h.operand (level + 1) r₁) fun right r₂ _ _ => ?_
    have hjoin : c.join (s.lineOf line) (left.relined s.lineOf) (right.relined s.lineOf) =
        (c.join line left right).relined s.lineOf := by cases c <;> rfl
    have hchain := h.operatorChain level (c.join line left right) r₂
    rw [← hjoin] at hchain
    exact hchain

theorem unary_succ : Carries s (Expr.relined s.lineOf) Ahead (Parse.unary (fuel + 1)) (Parse.unary (fuel' + 1)) r := by
  have hline : ∀ site : Site, (site.relined s.lineOf).line = s.lineOf site.line := by intro site; cases site <;> rfl
  rw [Parse.unary, Parse.unary]
  refine .ahead looks_acceptLeading fun found r₁ _ _ => ?_
  rcases found with _ | ⟨op | op, site⟩
  · exact .ahead (h.primary r₁) fun head r₂ _ _ => h.suffixes head r₂
  · refine .ahead (h.unary r₁) fun e _ _ _ => ?_
    rw [hline]
    exact .pure (f := Expr.relined s.lineOf) (.unary op site.line e)
  · exact .ahead (h.unary r₁) fun target _ _ _ => carries_updateBy op target (.literal (.number 1)) site _

theorem suffixes_succ (head : Expr) : Carries s (Expr.relined s.lineOf) Ahead (Parse.suffixes (fuel + 1) head)
    (Parse.suffixes (fuel' + 1) (head.relined s.lineOf)) r := by
  rw [Parse.suffixes, Parse.suffixes]
  refine .ahead (looks_accept _) fun _ r₁ _ _ => .ite Iff.rfl (fun _ => ?_) fun _ => ?_
  · refine .ahead (looks_unlessAt _ (h.argumentList 0)) fun arguments _ _ _ => ?_
    refine .ahead (carries_expectMark _ _) fun line r₃ _ _ => ?_
    have hargs : (arguments.map (relinedExprs s.lineOf)).getD [] = relinedExprs s.lineOf (arguments.getD []) := by
      cases arguments <;> rfl
    rw [hargs]
    exact h.suffixes (.call head line (arguments.getD [])) r₃
  · refine .ahead (looks_accept _) fun _ r₂ _ _ => .ite Iff.rfl (fun _ => ?_) fun _ => .pure head
    exact .ahead (carries_expectName _) fun name r₃ _ _ => h.suffixes (.get head name) r₃

theorem argumentList_succ (count : Nat) : Carries s (relinedExprs s.lineOf) Ahead (Parse.argumentList (fuel + 1) count)
    (Parse.argumentList (fuel' + 1) count) r := by
  rw [Parse.argumentList, Parse.argumentList]
  refine .ahead (carries_checkCount _ _) fun _ r₁ _ _ => .ahead (h.expression r₁) fun e _ _ _ => ?_
  refine .ahead (looks_accept _) fun _ r₃ _ _ => .ite Iff.rfl (fun _ => ?_) fun _ => ?_
  · exact .ahead (h.argumentList (count + 1) r₃) fun es _ _ _ => .pure (f := relinedExprs s.lineOf) (e :: es)
  · exact .pure (f := relinedExprs s.lineOf) [e]

theorem primary_succ :
    Carries s (Expr.relined s.lineOf) Ahead (Parse.primary (fuel + 1)) (Parse.primary (fuel' + 1)) r := by
  rw [Parse.primary, Parse.primary]
  refine .ahead looks_atom fun found r₁ _ _ => ?_
  cases found with
  | some e => exact .pure e
  | none =>
    refine .ahead looks_line fun line _ _ _ => .ahead (looks_accept _) fun _ r₂ _ _ => .ite Iff.rfl (fun _ => ?_) fun _ => ?_
    · refine .ahead (h.expression r₂) fun inner _ _ _ => .ahead (carries_expectMark _ _) fun _ _ _ _ => ?_
      exact .pure (f := Expr.relined s.lineOf) (.group inner)
    · refine .ahead (looks_accept _) fun _ _ _ _ => .ite Iff.rfl (fun _ => ?_) fun _ => .fail _ _
      refine .ahead (carries_expectMark _ _) fun _ _ _ _ => .ahead (carries_parameters fuel fuel') fun params r₃ _ _ => ?_
      refine .ahead (h.routineBody false r₃) fun body _ _ _ => ?_
      exact .pure (f := Expr.relined s.lineOf) (.lambda line ⟨params, body⟩)

/-! ## Functions and classes -/

theorem closedBody_succ : Carries s (relinedStmts s.lineOf) Carries.Closed (Parse.routineBody (fuel + 1) true)
    (Parse.routineBody (fuel' + 1) true) r := by
  refine .hungry (.of_meets (fun r => (rules _ _).routineBody true r) fun _ _ _ hq => hq.1) fun ha => ?_
  rw [Parse.routineBody, Parse.routineBody]
  refine .closed (carries_line ha) fun line r₁ hr _ => ?_
  cases hr
  refine carries_choice ha (fun _ => h.block _) fun _ => carries_choice ha (fun _ => ?_) fun _ => .fail _ _
  refine .upTo (h.expression _) (fun _ => hungry_endBody.bind _) fun value _ _ _ => ?_
  refine .closed (carries_endBody true) fun _ _ _ _ => ?_
  exact .pure (f := relinedStmts s.lineOf) [.returns .expressionBody r.line (some value)]

theorem routineBody_succ (closed : Bool) : Carries s (relinedStmts s.lineOf) Ahead (Parse.routineBody (fuel + 1) closed)
    (Parse.routineBody (fuel' + 1) closed) r := by
  rw [Parse.routineBody, Parse.routineBody]
  refine .ahead looks_line fun line _ _ _ => .ahead (looks_accept _) fun _ r₁ _ _ => .ite Iff.rfl (fun _ => ?_) fun _ => ?_
  · exact (h.block r₁).weaken
  · refine .ahead (looks_accept _) fun _ r₂ _ _ => .ite Iff.rfl (fun _ => ?_) fun _ => .fail _ _
    refine .ahead (h.expression r₂) fun value _ _ _ => .ahead (carries_endBody closed) fun _ _ _ _ => ?_
    exact .pure (f := relinedStmts s.lineOf) [.returns .expressionBody line (some value)]

theorem block_succ : Carries s (relinedStmts s.lineOf) Carries.Closed (Parse.block (fuel + 1)) (Parse.block (fuel' + 1)) r := by
  rw [Parse.block, Parse.block]
  refine .upTo (h.declarations r) (fun _ => (hungry_expectMark _ _).bind _) fun body _ _ _ => ?_
  exact .closed (carries_expectMark _ _) fun _ _ _ _ => .pure body

theorem declarations_succ :
    Carries s (relinedStmts s.lineOf) Ahead (Parse.declarations (fuel + 1)) (Parse.declarations (fuel' + 1)) r := by
  rw [Parse.declarations, Parse.declarations]
  refine .ahead (looks_before _) fun found r₁ hr _ => .ite Iff.rfl (fun hf => ?_) fun _ => ?_
  · have hne : r₁.Ahead := by
      cases hr
      intro ht
      simp [Reader.kind?, ht] at hf
    refine .ahead (h.declaration r₁ hne).weaken fun first r₂ _ _ => .ahead (h.declarations r₂) fun rest _ _ _ => ?_
    have happ : (first.map (Stmt.relined s.lineOf)).toList ++ relinedStmts s.lineOf rest =
        relinedStmts s.lineOf (first.toList ++ rest) := by cases first <;> rfl
    rw [happ]
    exact .pure _
  · exact .pure (f := relinedStmts s.lineOf) []

theorem declaration_succ (hne : r.Ahead) : Carries s (Option.map (Stmt.relined s.lineOf)) Carries.Closed
    (Parse.declaration (fuel + 1)) (Parse.declaration (fuel' + 1)) r := by
  have hm := (rules (fun _ => True) (fuel + 1)).declaration r hne
  rw [Parse.declaration, Parse.declaration]
  rw [Parse.declaration] at hm
  refine carries_recover hm (fun _ hq => hq.2.2 rfl) (carries_choice hne (fun _ => h.classDeclaration _) fun _ => ?_)
  by_cases hlen : r.kind? = some (.keyword .fun) → 1 < r.tokens.length
  · refine .closed (carries_atFunctionDeclaration hne hlen) fun found r₁ hr _ => ?_
    obtain rfl : r₁ = r := by cases hr; rfl
    refine .ite Iff.rfl (fun _ => ?_) fun _ => carries_choice hne (fun _ => h.varDeclaration _) fun _ => h.statement _
    refine .closed (carries_skip hne) fun _ _ _ _ => .closed (carries_expectName _) fun name _ _ _ => ?_
    refine .closed (carries_expectMark _ _) fun _ _ _ _ => .closed (carries_parameters fuel fuel') fun params r₃ _ _ => ?_
    refine .closed (h.closedBody r₃) fun body _ _ _ => ?_
    exact .pure (f := Stmt.relined s.lineOf) (.funDecl name ⟨params, body⟩)
  · -- a lonely `fun` is read no further than that
    obtain ⟨hk, hlen⟩ := Classical.not_imp.mp hlen
    intro a r' hr
    have hno : atFunctionDeclaration r = .done false r := by
      obtain ⟨tokens, endLine, nextId, errors⟩ := r
      cases tokens with
      | nil => exact absurd rfl hne
      | cons t rest =>
        cases rest with
        | nil =>
          obtain ⟨kind, line⟩ := t
          obtain rfl : kind = .keyword .fun := by simpa [Reader.kind?] using hk
          rfl
        | cons u rest => exact absurd (by simp) hlen
    rw [Run.bind_apply, hno] at hr
    have hr : (do if ← acceptKeyword .var then Parse.varDeclaration fuel else Parse.statement fuel : Parse Stmt) r =
        .done a r' := hr
    rw [acceptKeyword, choice_of_ne (by simp [hk])] at hr
    cases fuel with
    | zero => cases hr
    | succ fuel =>
      rw [statement_at_fun hk] at hr
      exact absurd (length_of_expressionStatement hr) hlen

theorem classDeclaration_succ : Carries s (Stmt.relined s.lineOf) Carries.Closed (Parse.classDeclaration (fuel + 1))
    (Parse.classDeclaration (fuel' + 1)) r := by
  rw [Parse.classDeclaration, Parse.classDeclaration]
  refine .closed (carries_expectName _) fun name _ _ _ => ?_
  refine .upTo looks_superclass (fun _ => (hungry_expectMark _ _).bind _) fun superclass _ _ _ => ?_
  refine .closed (carries_expectMark _ _) fun _ r₃ _ _ => ?_
  refine .upTo (h.members r₃) (fun _ => (hungry_expectMark _ _).bind _) ?_
  rintro ⟨methods, statics⟩ r₄ - -
  refine .closed (carries_expectMark _ _) fun _ _ _ _ => ?_
  exact .pure (f := Stmt.relined s.lineOf) (.classDecl name superclass methods statics)

theorem members_succ : Carries s (Prod.map (relinedMethods s.lineOf) (relinedMethods s.lineOf)) Ahead
    (Parse.members (fuel + 1)) (Parse.members (fuel' + 1)) r := by
  rw [Parse.members, Parse.members]
  refine .ahead (looks_before _) fun _ _ _ _ => .ite Iff.rfl (fun _ => ?_) fun _ => ?_
  · refine .ahead (looks_accept _) fun isStatic r₁ _ _ => .ahead (h.method r₁) fun m r₂ _ _ => ?_
    refine .ahead (h.members r₂) ?_
    rintro ⟨methods, statics⟩ r₃ - -
    cases isStatic with
    | true => exact .pure (f := Prod.map (relinedMethods s.lineOf) (relinedMethods s.lineOf)) (methods, m :: statics)
    | false => exact .pure (f := Prod.map (relinedMethods s.lineOf) (relinedMethods s.lineOf)) (m :: methods, statics)
  · exact .pure (f := Prod.map (relinedMethods s.lineOf) (relinedMethods s.lineOf)) ([], [])

theorem method_succ : Carries s (Method.relined s.lineOf) Ahead (Parse.method (fuel + 1)) (Parse.method (fuel' + 1)) r := by
  rw [Parse.method, Parse.method]
  refine .ahead (carries_expectName _) fun name _ _ _ => ?_
  refine .ahead (looks_ifAccepted _ fun _ => carries_parameters fuel fuel') fun params r₂ _ _ => ?_
  refine .ahead (h.closedBody r₂).weaken fun body _ _ _ => ?_
  have hnone : (params.map (List.map (Name.relined s.lineOf))).isNone = params.isNone := by cases params <;> rfl
  have hsome : (params.map (List.map (Name.relined s.lineOf))).getD [] = (params.getD []).map (Name.relined s.lineOf) := by
    cases params <;> rfl
  rw [hnone, hsome]
  exact .pure (f := Method.relined s.lineOf) ⟨name, params.isNone, ⟨params.getD [], body⟩⟩

/-! ## Statements -/

theorem varDeclaration_succ : Carries s (Stmt.relined s.lineOf) Carries.Closed (Parse.varDeclaration (fuel + 1))
    (Parse.varDeclaration (fuel' + 1)) r := by
  rw [Parse.varDeclaration, Parse.varDeclaration]
  refine .closed (carries_expectName _) fun name _ _ _ => ?_
  refine .upTo (looks_ifAccepted _ h.expression) (fun _ => (hungry_expectMark _ _).bind _) fun init _ _ _ => ?_
  refine .closed (carries_expectMark _ _) fun _ _ _ _ => ?_
  cases init with
  | none => exact .pure (f := Stmt.relined s.lineOf) (.varDecl name none)
  | some e => exact .pure (f := Stmt.relined s.lineOf) (.varDecl name (some e))

theorem statement_succ : Carries s (Stmt.relined s.lineOf) Carries.Closed (Parse.statement (fuel + 1))
    (Parse.statement (fuel' + 1)) r := by
  refine .hungry (.of_meets (rules _ (fuel + 1)).statement fun _ _ _ hq => hq.1.1) fun ha => ?_
  rw [Parse.statement, Parse.statement]
  refine .closed (carries_line ha) fun line r₁ hr _ => ?_
  cases hr
  refine carries_choice ha (fun _ => h.forStatement _) fun _ => carries_choice ha (fun _ => h.ifStatement _) fun _ => ?_
  refine carries_choice ha (fun _ => ?_) fun _ => carries_choice ha (fun _ => ?_) fun _ => ?_
  · refine .closed (carries_expectMark _ _) fun _ r₁ _ _ => ?_
    refine .upTo (h.expression r₁) (fun _ => (hungry_expectMark _ _).bind _) fun condition _ _ _ => ?_
    refine .closed (carries_expectMark _ _) fun _ r₃ _ _ => .closed (h.statement r₃) fun body _ _ _ => ?_
    exact .pure (f := Stmt.relined s.lineOf) (.loop condition body)
  · refine .upTo (looks_unlessAt _ h.expression) (fun _ => (hungry_expectMark _ _).bind _) fun value _ _ _ => ?_
    refine .closed (carries_expectMark _ _) fun _ _ _ _ => ?_
    cases value with
    | none => exact .pure (f := Stmt.relined s.lineOf) (.returns .keyword r.line none)
    | some e => exact .pure (f := Stmt.relined s.lineOf) (.returns .keyword r.line (some e))
  refine carries_choice ha (fun _ => ?_) fun _ => carries_choice ha (fun _ => ?_) fun _ => ?_
  · refine .closed (carries_expectMark _ _) fun _ _ _ _ => ?_
    exact .pure (f := Stmt.relined s.lineOf) (.breaks r.line)
  · exact .closed (h.block _) fun body _ _ _ => .pure (f := Stmt.relined s.lineOf) (.block body)
  refine carries_choice ha (fun _ => ?_) fun _ => h.expressionStatement r
  refine .upTo (h.expression _) (fun _ => (hungry_expectMark _ _).bind _) fun value _ _ _ => ?_
  exact .closed (carries_expectMark _ _) fun _ _ _ _ => .pure (f := Stmt.relined s.lineOf) (.print value)

theorem expressionStatement_succ : Carries s (Stmt.relined s.lineOf) Carries.Closed (Parse.expressionStatement (fuel + 1))
    (Parse.expressionStatement (fuel' + 1)) r := by
  rw [Parse.expressionStatement, Parse.expressionStatement]
  refine .upTo (h.expression r) (fun _ => (hungry_expectMark _ _).bind _) fun e _ _ _ => ?_
  exact .closed (carries_expectMark _ _) fun _ _ _ _ => .pure (f := Stmt.relined s.lineOf) (.expr e)

theorem ifStatement_succ : Carries s (Stmt.relined s.lineOf) Carries.Closed (Parse.ifStatement (fuel + 1))
    (Parse.ifStatement (fuel' + 1)) r := by
  rw [Parse.ifStatement, Parse.ifStatement]
  refine .closed (carries_expectMark _ _) fun _ r₁ _ _ => ?_
  refine .upTo (h.expression r₁) (fun _ => (hungry_expectMark _ _).bind _) fun condition _ _ _ => ?_
  refine .closed (carries_expectMark _ _) fun _ r₃ _ _ => .closed (h.statement r₃) fun thenBranch r₄ _ _ => ?_
  have otherwise : Carries s (Option.map (Stmt.relined s.lineOf)) Carries.Closed
      (ifAccepted (.keyword .else) (Parse.statement fuel)) (ifAccepted (.keyword .else) (Parse.statement fuel')) r₄ := by
    refine .closed carries_acceptElse fun _ r₅ _ _ => .ite Iff.rfl (fun _ => ?_) fun _ => .pure none
    exact .closed (h.statement r₅) fun st _ _ _ => .pure (some st)
  refine .closed otherwise fun elseBranch _ _ _ => ?_
  cases elseBranch with
  | none => exact .pure (f := Stmt.relined s.lineOf) (.branch condition thenBranch none)
  | some st => exact .pure (f := Stmt.relined s.lineOf) (.branch condition thenBranch (some st))

theorem forStatement_succ : Carries s (Stmt.relined s.lineOf) Carries.Closed (Parse.forStatement (fuel + 1))
    (Parse.forStatement (fuel' + 1)) r := by
  rw [Parse.forStatement, Parse.forStatement]
  have clause : ∀ m r, Carries s (Option.map (Expr.relined s.lineOf)) Ahead (unlessAt m (Parse.expression fuel))
      (unlessAt m (Parse.expression fuel')) r := fun m r => looks_unlessAt m h.expression
  have later : ∀ m r a r', unlessAt m (Parse.expression fuel) r = .done a r' → r.Later r' := fun m r a r' hr =>
    Carries.later_of_meets (meets_unlessAt m ((rules _ fuel).expression r)) hr
  refine .closed (carries_expectMark _ _) fun _ r₁ _ _ => ?_
  refine .upTo (h.forInitializer r₁) (fun _ => .after (later _) fun _ => (hungry_expectMark _ _).bind _) ?_
  refine fun initializer r₂ _ _ => .upTo (clause _ r₂) (fun _ => (hungry_expectMark _ _).bind _) fun condition _ _ _ => ?_
  refine .closed (carries_expectMark _ _) fun _ r₄ _ _ => ?_
  refine .upTo (clause _ r₄) (fun _ => (hungry_expectMark _ _).bind _) fun increment _ _ _ => ?_
  refine .closed (carries_expectMark _ _) fun _ r₆ _ _ => .closed (h.statement r₆) fun body _ _ _ => ?_
  rw [forLoop_relined]
  exact .pure _

theorem forInitializer_succ : Carries s (Option.map (Stmt.relined s.lineOf)) Ahead (Parse.forInitializer (fuel + 1))
    (Parse.forInitializer (fuel' + 1)) r := by
  rw [Parse.forInitializer, Parse.forInitializer]
  refine .ahead (looks_accept _) fun _ _ _ _ => .ite Iff.rfl (fun _ => .pure none) fun _ => ?_
  refine .ahead (looks_accept _) fun _ r₁ _ _ => .ite Iff.rfl (fun _ => ?_) fun _ => ?_
  · exact .ahead (h.varDeclaration r₁).weaken fun st _ _ _ => .pure (some st)
  · exact .ahead (h.expressionStatement r₁).weaken fun st _ _ _ => .pure (some st)

end

end Carrying

/-- With any fuel, each rule reads the same in the setting or runs out of fuel there. -/
theorem carrying : ∀ fuel fuel', Carrying s fuel fuel'
  | 0, fuel' => .zero fuel'
  | fuel + 1, 0 => .dry (fuel + 1)
  | fuel + 1, fuel' + 1 =>
    have h := carrying fuel fuel'
    { expression := h.expression_succ
      operand := fun level r => h.operand_succ r level
      operatorChain := fun level left r => h.operatorChain_succ r level left
      unary := h.unary_succ
      suffixes := fun head r => h.suffixes_succ r head
      argumentList := fun count r => h.argumentList_succ r count
      primary := h.primary_succ
      closedBody := h.closedBody_succ
      routineBody := fun closed r => h.routineBody_succ r closed
      block := h.block_succ
      declarations := h.declarations_succ
      declaration := h.declaration_succ
      classDeclaration := h.classDeclaration_succ
      members := h.members_succ
      method := h.method_succ
      varDeclaration := h.varDeclaration_succ
      statement := h.statement_succ
      expressionStatement := h.expressionStatement_succ
      ifStatement := h.ifStatement_succ
      forStatement := h.forStatement_succ
      forInitializer := h.forInitializer_succ }

/-! ## No program starts with an `else` or a closing brace -/

/-- The rule does not get through. -/
def Stuck {α : Type} (rule : Parse α) (r : Reader) : Prop := ∀ a r', rule r ≠ .done a r'

theorem Stuck.bind {α β : Type} {rule : Parse α} {r : Reader} (h : Stuck rule r) (next : α → Parse β) :
    Stuck (rule >>= next) r := by
  intro b r' hb
  obtain ⟨a, r₁, hr, -⟩ := Run.of_bind_done hb
  exact h a r₁ hr

section
variable {r : Reader} {kind : Token.Kind} (hk : r.kind? = some kind) (hstray : kind = .keyword .else ∨ kind = .mark .rightBrace)
include hk hstray

theorem stuck_primary : ∀ fuel, Stuck (primary fuel) r
  | 0 => nofun
  | fuel + 1 => by
    intro e r' h
    obtain rfl | rfl := hstray
    all_goals
      have hatom : atom? r = .done none r := by
        simp only [atom?, line, kind?, Run.bind_apply, Run.read, hk]
        rfl
      rw [primary, Run.bind_apply, hatom] at h
      dsimp only at h
      rw [Run.bind_apply] at h
      simp only [line, Run.read, acceptMark, acceptKeyword] at h
      simp (disch := simp [hk]) only [choice_of_ne] at h
      cases h

theorem stuck_unary : ∀ fuel, Stuck (unary fuel) r
  | 0 => nofun
  | fuel + 1 => by
    have hleading : acceptLeading r = .done none r := by
      obtain rfl | rfl := hstray
      all_goals
        simp only [acceptLeading, kind?, Run.bind_apply, Run.read, hk]
        rfl
    intro e r' h
    rw [unary, Run.bind_apply, hleading] at h
    exact (stuck_primary hk hstray fuel).bind _ e r' h

theorem stuck_operand : ∀ fuel level, Stuck (operand fuel level) r
  | 0, _ => nofun
  | fuel + 1, level => by
    rw [operand]
    split
    · exact (stuck_operand fuel (level + 1)).bind _
    · exact stuck_unary hk hstray fuel

theorem stuck_expression : ∀ fuel, Stuck (expression fuel) r
  | 0 => nofun
  | fuel + 1 => by
    rw [expression]
    exact (stuck_operand hk hstray fuel 0).bind _

theorem stuck_expressionStatement : ∀ fuel, Stuck (expressionStatement fuel) r
  | 0 => nofun
  | fuel + 1 => by
    rw [expressionStatement]
    exact (stuck_expression hk hstray fuel).bind _

theorem stuck_statement : ∀ fuel, Stuck (statement fuel) r
  | 0 => nofun
  | fuel + 1 => by
    intro st r' h
    refine stuck_expressionStatement hk hstray fuel st r' ?_
    rw [statement, Run.bind_apply] at h
    simp only [line, Run.read, acceptKeyword, acceptMark] at h
    obtain rfl | rfl := hstray
    all_goals
      simp (disch := simp [hk]) only [choice_of_ne] at h
      exact h

theorem errors_of_stray {fuel : Nat} {st : Option Stmt} {r' : Reader} (h : declaration fuel r = .done st r') :
    r.errors.length < r'.errors.length := by
  have hm := (rules (fun _ => True) fuel).declaration r (ahead_of_kind hk) fun _ _ _ _ => trivial
  rw [h] at hm
  refine hm.2.2.2 ?_
  have hne : ∀ {other : Token.Kind}, other ≠ .keyword .else ∧ other ≠ .mark .rightBrace → r.kind? ≠ some other := by
    rintro other ⟨helse, hbrace⟩ hr
    obtain rfl : kind = other := Option.some.inj (hk.symm.trans hr)
    exact hstray.elim helse hbrace
  cases fuel with
  | zero => cases h
  | succ fuel =>
    rw [declaration] at h
    unfold recover at h
    split at h
    · rename_i a r₁ hr
      rw [acceptKeyword, choice_of_ne (hne (by decide))] at hr
      rw [Run.bind_apply, atFunctionDeclaration_of_ne (hne (by decide))] at hr
      dsimp only at hr
      rw [if_neg (by simp), acceptKeyword, choice_of_ne (hne (by decide))] at hr
      exact absurd hr (stuck_statement hk hstray fuel a r₁)
    · cases h; rfl
    · cases h

end

/-! ## Programs one after the other -/

theorem program_cases {fuel : Nat} {r r' : Reader} {sts : List Stmt} (h : program (fuel + 1) r = .done sts r') :
    (r.tokens = [] ∧ sts = [] ∧ r' = r) ∨ ∃ first r₁ rest, r.Ahead ∧ declaration fuel r = .done first r₁ ∧
      program fuel r₁ = .done rest r' ∧ sts = first.toList ++ rest := by
  cases ht : r.tokens with
  | nil =>
    have hk : r.kind? = none := by simp [Reader.kind?, ht]
    rw [program, Run.bind_apply] at h
    simp only [kind?, Run.read, hk] at h
    cases h
    exact .inl ⟨rfl, rfl, rfl⟩
  | cons t ts =>
    have hk : r.kind? = some t.kind := by simp [Reader.kind?, ht]
    rw [program, Run.bind_apply] at h
    simp only [kind?, Run.read, hk] at h
    obtain ⟨first, r₁, hd, h⟩ := Run.of_bind_done h
    obtain ⟨rest, r₂, hp, h⟩ := Run.of_bind_done h
    cases h
    exact .inr ⟨first, r₁, rest, ahead_of_kind hk, hd, hp, rfl⟩

theorem program_later {fuel : Nat} {r r' : Reader} {sts : List Stmt} (h : program fuel r = .done sts r') : r.Later r' :=
  Carries.later_of_meets (meets_program fuel r) h

theorem program_ends : ∀ {fuel : Nat} {r r' : Reader} {sts : List Stmt}, program fuel r = .done sts r' → r'.tokens = []
  | fuel + 1, _, _, _, h => by
    rcases program_cases h with ⟨ht, -, rfl⟩ | ⟨_, _, _, -, -, hp, -⟩
    · exact ht
    · exact program_ends hp

theorem program_of_else {fuel : Nat} {r r' : Reader} {sts : List Stmt} (hk : r.kind? = some (.keyword .else))
    (h : program fuel r = .done sts r') : r'.errors ≠ r.errors := by
  cases fuel with
  | zero => cases h
  | succ fuel =>
    rcases program_cases h with ⟨ht, -, -⟩ | ⟨_, r₁, _, -, hd, hp, -⟩
    · exact absurd ht (ahead_of_kind hk)
    · intro he
      have hlt := Nat.lt_of_lt_of_le (errors_of_stray hk (.inl rfl) hd) (program_later hp).errors.length_le
      rw [he] at hlt
      exact Nat.lt_irrefl _ hlt

/-- After a program without errors the setting reads on with what follows it. -/
theorem program_continues : ∀ {fuel : Nat} (fuel' : Nat) {r r' : Reader} {sts : List Stmt},
    program fuel r = .done sts r' → r'.errors = r.errors → program fuel' (s.reader r) = .exhausted ∨
      ∃ rest, program fuel' (s.reader r) = (do return relinedStmts s.lineOf sts ++ (← program rest)) (s.reader r')
  | fuel + 1, 0, _, _, _, _, _ => .inl rfl
  | fuel + 1, fuel' + 1, r, r', sts, h, he => by
    rcases program_cases h with ⟨-, rfl, rfl⟩ | ⟨first, r₁, rest, ha, hd, hp, rfl⟩
    · refine .inr ⟨fuel' + 1, ?_⟩
      rw [Run.bind_apply]
      cases program (fuel' + 1) (s.reader r') <;> rfl
    have hl := (program_later hp).errors
    obtain ⟨hl', hcarried⟩ := (carrying s fuel fuel').declaration r ha first r₁ hd
    have he₁ : r₁.errors = r.errors := (hl'.errors.eq_of_length_le (by rw [← he]; exact hl.length_le)).symm
    have hk : (s.reader r).kind? ≠ none := by
      rw [Setting.kind?_reader ha]
      exact fun hn => ha (by simpa [Reader.kind?] using hn)
    obtain ⟨kind, hk⟩ := Option.ne_none_iff_exists'.mp hk
    rw [program, Run.bind_apply]
    simp only [kind?, Run.read, hk]
    rw [Run.bind_apply]
    rcases hcarried he₁ trivial with h | h
    · rw [h]; exact .inl rfl
    rw [h]
    dsimp only
    rw [Run.bind_apply]
    rcases program_continues fuel' hp (he.trans he₁.symm) with h | ⟨more, h⟩
    · rw [h]; exact .inl rfl
    · refine .inr ⟨more, ?_⟩
      rw [h, Run.bind_apply, Run.bind_apply]
      cases program more (s.reader r') with
      | done tail r₂ => cases first <;> rfl
      | failed e r₂ => rfl
      | exhausted => rfl

end Parse

open Parse

/-- The program of two texts is that of the first and then that of the second, which goes on with
the identities and stands on later lines. -/
theorem parseProgram_two_texts {first second : String} {nextId : NodeId} {p q : Parsed (List Stmt)}
    (hlex : errorsOf (Item.ofSource first) = []) (hp : parseProgram (tokensOf (Item.ofSource first)) nextId = p)
    (hq : parseProgram (tokensOf (Item.ofSource second)) p.nextId = q) (hpe : p.errors = []) (hqe : q.errors = []) :
    parseProgram (tokensOf (Item.ofSource (first ++ "\n" ++ second))) nextId =
      { tree := p.tree ++ relinedStmts (· + lastLine first) q.tree, errors := [], nextId := q.nextId } := by
  subst hp hq
  obtain ⟨r, hr, hre, hrn⟩ := program_of_parsed hpe
  obtain ⟨r', hr', hre', hrn'⟩ := program_of_parsed hqe
  rw [ofTokens_ofSource] at hr hr'
  let joint := first ++ "\n" ++ second
  -- the second text, where nothing follows, and then the first one, where the second one does
  let below : Setting := ⟨(· + lastLine first), [], lastLine joint, by simp⟩
  have hfresh : ((tokensIn second).map (Token.relined below.lineOf)).head?.map Token.kind ≠ some (.keyword .else) := by
    intro hk
    refine program_of_else ?_ hr' hre'
    cases ht : tokensIn second with
    | nil => simp [ht] at hk
    | cons t ts => simpa [Reader.kind?, ht, Token.relined] using hk
  let above : Setting := ⟨id, (tokensIn second).map (Token.relined below.lineOf), lastLine joint, hfresh⟩
  have hjoint : Reader.ofTokens (tokensOf (Item.ofSource joint)) nextId =
      above.reader { tokens := tokensIn first, endLine := lastLine first, nextId, errors := [] } := by
    rw [ofTokens_ofSource, tokensIn_two_texts hlex]
    have hid : Token.relined id = id := rfl
    simp [above, Setting.reader, hid, below]
  have hbetween : above.reader r = below.reader
      ⟨tokensIn second, lastLine second, (parseProgram (tokensOf (Item.ofSource first)) nextId).nextId, []⟩ := by
    simp [above, below, Setting.reader, program_ends hr, hre, hrn]
  have hfuel := program_has_fuel (tokensOf (Item.ofSource joint)) nextId
  rw [parseProgram]
  rw [hjoint] at hfuel ⊢
  rcases program_continues above (grammarFuel _) hr hre with h | ⟨rest, h⟩
  · exact absurd h hfuel
  rw [h, hbetween, Run.bind_apply] at hfuel ⊢
  rcases program_continues below rest hr' hre' with h | ⟨rest', h⟩
  · rw [h] at hfuel; exact absurd rfl hfuel
  rw [h, Run.bind_apply] at hfuel ⊢
  cases rest' with
  | zero => exact absurd rfl hfuel
  | succ rest' =>
    have hlast : program (rest' + 1) (below.reader r') = .done [] (below.reader r') := by
      have hk : (below.reader r').kind? = none := by simp [below, Setting.reader, Reader.kind?, program_ends hr']
      rw [program, Run.bind_apply]
      simp only [kind?, Run.read, hk]
      rfl
    rw [hlast]
    simp [above, below, relinedStmts_id, hre', hrn', Setting.reader]

end Lox
