import Lox.Proofs.Grammar.Sequel

/-!
# Rules and what comes after

Every rule does the same whatever comes after its tokens, if some are left. Rules that end with a mark need none left, and
so do statements that end with a semicolon.
-/

namespace Lox

/-! ## Recovery -/

section
variable {more : List Token}

/-- Skipping stops at a token that is left, or right behind a semicolon. -/
theorem skipStatement_append : ∀ {last : Token} {ts : List Token},
    skipStatement last ts ≠ [] ∨ (last :: ts).getLast?.map Token.kind = some (.mark .semicolon) →
    skipStatement last (ts ++ more) = skipStatement last ts ++ more
  | last, [], h => by
    have hk : last.kind = .mark .semicolon := by simpa [skipStatement] using h
    cases more with
    | nil => rfl
    | cons t ts => simp [skipStatement, hk]
  | last, t :: ts, h => by
    rw [List.cons_append, skipStatement, skipStatement]
    rw [skipStatement, List.getLast?_cons_cons] at h
    split
    · rfl
    · rename_i hl
      split
      · rfl
      · rename_i ht
        rw [if_neg hl, if_neg ht] at h
        exact skipStatement_append h

theorem synchronize_append {ts : List Token}
    (h : synchronize ts ≠ [] ∨ ts.getLast?.map Token.kind = some (.mark .semicolon)) :
    synchronize (ts ++ more) = synchronize ts ++ more := by
  cases ts with
  | nil => simp [synchronize] at h
  | cons t ts => exact skipStatement_append h

end

namespace Parse

open Reader

theorem kind?_of_atFunctionDeclaration {r r' : Reader} (h : atFunctionDeclaration r = .done true r') :
    r'.kind? = some (.keyword .fun) := by
  obtain rfl : r = r' := (Outcome.done.inj h).2
  by_contra hk
  rw [atFunctionDeclaration_of_ne hk] at h
  cases h

/-- A statement starts here whose last part is a statement again. -/
def Nests (r : Reader) : Prop :=
  r.kind? = some (.keyword .for) ∨ r.kind? = some (.keyword .if) ∨ r.kind? = some (.keyword .while)

variable (x : Sequel)

structure Overlooking (fuel : Nat) : Prop where
  expression : ∀ r, Overlooks x x.Hidden (expression fuel) r
  operand : ∀ level r, Overlooks x x.Hidden (operand fuel level) r
  operatorChain : ∀ level left r, Overlooks x x.Hidden (operatorChain fuel level left) r
  unary : ∀ r, Overlooks x x.Hidden (unary fuel) r
  suffixes : ∀ head r, Overlooks x x.Hidden (suffixes fuel head) r
  argumentList : ∀ count r, Overlooks x x.Hidden (argumentList fuel count) r
  primary : ∀ r, Overlooks x x.Hidden (primary fuel) r
  routineBody : ∀ closed r, Overlooks x x.Hidden (routineBody fuel closed) r
  block : ∀ r, Overlooks x Overlooks.Closed (block fuel) r
  declarations : ∀ r, Overlooks x x.Hidden (declarations fuel) r
  declaration : ∀ r, Overlooks x x.Hidden (declaration fuel) r
  classDeclaration : ∀ r, Overlooks x x.Hidden (classDeclaration fuel) r
  members : ∀ r, Overlooks x x.Hidden (members fuel) r
  method : ∀ r, Overlooks x x.Hidden (method fuel) r
  varDeclaration : ∀ r, Overlooks x Overlooks.Closed (varDeclaration fuel) r
  statement : ∀ r, Overlooks x (fun r' => Nests r → x.Hidden r') (statement fuel) r
  expressionStatement : ∀ r, Overlooks x Overlooks.Closed (expressionStatement fuel) r
  ifStatement : ∀ r, Overlooks x x.Hidden (ifStatement fuel) r
  forStatement : ∀ r, Overlooks x x.Hidden (forStatement fuel) r
  forInitializer : ∀ r, Overlooks x x.Hidden (forInitializer fuel) r

namespace Overlooking

variable {x} {fuel : Nat}

theorem zero : Overlooking x 0 := by
  constructor
  all_goals intros; exact .exhausted

section
variable (h : Overlooking x fuel) (r : Reader)
include h

/-! ## Expressions -/

theorem expression_succ : Overlooks x x.Hidden (Parse.expression (fuel + 1)) r := by
  rw [Parse.expression, acceptAssignment_eq]
  refine .hidden (h.operand 0 r) fun target r₁ _ _ => .hidden (overlooks_acceptForm _) fun found r₂ hr _ => ?_
  rcases found with _ | ⟨_ | op, site⟩
  · exact .pure _
  · exact .hidden (h.expression r₂) fun value _ _ _ => overlooks_assignTo _ _ (isToken_of_acceptForm _ hr) _
  · exact .hidden (h.expression r₂) fun value _ _ _ => overlooks_updateBy _ _ _ (isToken_of_acceptForm _ hr) _

theorem operand_succ (level : Nat) : Overlooks x x.Hidden (Parse.operand (fuel + 1) level) r := by
  rw [Parse.operand]
  refine .ite (fun _ => ?_) fun _ => h.unary r
  exact .hidden (h.operand (level + 1) r) fun left r₁ _ _ => h.operatorChain level left r₁

theorem operatorChain_succ (level : Nat) (left : Expr) : Overlooks x x.Hidden (Parse.operatorChain (fuel + 1) level left) r := by
  rw [Parse.operatorChain]
  refine .hidden (overlooks_acceptConnective level) fun found r₁ _ _ => ?_
  rcases found with _ | ⟨c, line⟩
  · exact .pure _
  · exact .hidden (h.operand (level + 1) r₁) fun right r₂ _ _ => h.operatorChain level _ r₂

theorem unary_succ : Overlooks x x.Hidden (Parse.unary (fuel + 1)) r := by
  rw [Parse.unary, acceptLeading_eq]
  refine .hidden (overlooks_acceptForm _) fun found r₁ hr _ => ?_
  rcases found with _ | ⟨op | op, site⟩
  · exact .hidden (h.primary r₁) fun head r₂ _ _ => h.suffixes head r₂
  · exact .hidden (h.unary r₁) fun e _ _ _ => .pure _
  · exact .hidden (h.unary r₁) fun target _ _ _ => overlooks_updateBy _ _ _ (isToken_of_acceptForm _ hr) _

theorem suffixes_succ (head : Expr) : Overlooks x x.Hidden (Parse.suffixes (fuel + 1) head) r := by
  rw [Parse.suffixes]
  refine .hidden (overlooks_accept id _) fun _ r₁ _ _ => .ite (fun _ => ?_) fun _ => ?_
  · refine .hidden (overlooks_unlessAt _ (h.argumentList 0)) fun arguments _ _ _ => ?_
    exact .hidden (overlooks_expectMark _ _) fun line r₃ _ _ => h.suffixes _ r₃
  · refine .hidden (overlooks_accept id _) fun _ r₂ _ _ => .ite (fun _ => ?_) fun _ => .pure _
    exact .hidden (overlooks_expectName _) fun name r₃ _ _ => h.suffixes _ r₃

theorem argumentList_succ (count : Nat) : Overlooks x x.Hidden (Parse.argumentList (fuel + 1) count) r := by
  rw [Parse.argumentList]
  refine .hidden (overlooks_checkCount _ _) fun _ r₁ _ _ => .hidden (h.expression r₁) fun e _ _ _ => ?_
  refine .hidden (overlooks_accept id _) fun _ r₃ _ _ => .ite (fun _ => ?_) fun _ => .pure _
  exact .hidden (h.argumentList (count + 1) r₃) fun es _ _ _ => .pure _

theorem primary_succ : Overlooks x x.Hidden (Parse.primary (fuel + 1)) r := by
  rw [Parse.primary]
  refine .hidden overlooks_atom fun found r₁ _ _ => ?_
  cases found with
  | some e => exact .pure _
  | none =>
    refine .hidden (overlooks_line id) fun line _ _ _ => .hidden (overlooks_accept id _) fun _ r₂ _ _ => ?_
    refine .ite (fun _ => ?_) fun _ => ?_
    · exact .hidden (h.expression r₂) fun inner _ _ _ => .hidden (overlooks_expectMark _ _) fun _ _ _ _ => .pure _
    · refine .hidden (overlooks_accept id _) fun _ _ _ _ => .ite (fun _ => ?_) fun _ => .fail _
      refine .hidden (overlooks_expectMark _ _) fun _ _ _ _ => .hidden (overlooks_parameters fuel) fun params r₃ _ _ => ?_
      exact .hidden (h.routineBody false r₃) fun body _ _ _ => .pure _

/-! ## Functions and classes -/

theorem routineBody_succ (closed : Bool) : Overlooks x x.Hidden (Parse.routineBody (fuel + 1) closed) r := by
  rw [Parse.routineBody]
  refine .hidden (overlooks_line id) fun line _ _ _ => .hidden (overlooks_accept id _) fun _ r₁ _ _ => ?_
  refine .ite (fun _ => ?_) fun _ => ?_
  · exact (h.block r₁).weaken fun _ _ => trivial
  · refine .hidden (overlooks_accept id _) fun _ r₂ _ _ => .ite (fun _ => ?_) fun _ => .fail _
    exact .hidden (h.expression r₂) fun value _ _ _ => .hidden (overlooks_endBody closed) fun _ _ _ _ => .pure _

theorem block_succ : Overlooks x Overlooks.Closed (Parse.block (fuel + 1)) r := by
  rw [Parse.block]
  refine .upTo (h.declarations r) (fun _ => (hungry_expectMark _ _).bind _) fun body _ _ _ => ?_
  exact .closed (overlooks_expectMark _ _) fun _ _ _ _ => .pure _

theorem declarations_succ : Overlooks x x.Hidden (Parse.declarations (fuel + 1)) r := by
  rw [Parse.declarations]
  refine .hidden (overlooks_before _) fun found r₁ _ _ => .ite (fun _ => ?_) fun _ => .pure _
  exact .hidden (h.declaration r₁) fun first r₂ _ _ => .hidden (h.declarations r₂) fun rest _ _ _ => .pure _

/-- Recovery stops at a token that is left, and so it does where more tokens follow. -/
theorem declaration_succ : Overlooks x x.Hidden (Parse.declaration (fuel + 1)) r := by
  rw [Parse.declaration]
  refine overlooks_recover ?_ fun e r₁ _ hx => ?_
  case refine_2 =>
    obtain ha | ⟨hmore, hline⟩ := hx
    · exact ⟨.inl fun ht => ha (by simp [ht, synchronize]), synchronize_append (.inl ha)⟩
    · exact ⟨.inr ⟨hmore, hline⟩, by simp [hmore]⟩
  refine .hidden (overlooks_accept id _) fun _ r₁ _ _ => .ite (fun _ => h.classDeclaration r₁) fun _ => ?_
  refine .hidden (overlooks_atFunctionDeclaration id) fun found r₂ hr _ => .ite (fun hf => ?_) fun _ => ?_
  · subst hf
    have hahead := ahead_of_kind (kind?_of_atFunctionDeclaration hr)
    refine .hidden (overlooks_skip (.inl hahead)) fun _ _ _ _ => .hidden (overlooks_expectName _) fun name _ _ _ => ?_
    refine .hidden (overlooks_expectMark _ _) fun _ _ _ _ => .hidden (overlooks_parameters fuel) fun params r₃ _ _ => ?_
    exact .hidden (h.routineBody true r₃) fun body _ _ _ => .pure _
  · refine .hidden (overlooks_accept id _) fun _ r₃ _ _ => .ite (fun _ => ?_) fun _ => ?_
    · exact (h.varDeclaration r₃).weaken fun _ _ => trivial
    · exact (h.statement r₃).weaken fun _ hx _ => hx

theorem classDeclaration_succ : Overlooks x x.Hidden (Parse.classDeclaration (fuel + 1)) r := by
  rw [Parse.classDeclaration]
  refine .hidden (overlooks_expectName _) fun name _ _ _ => .hidden overlooks_superclass fun superclass _ _ _ => ?_
  refine .hidden (overlooks_expectMark _ _) fun _ r₃ _ _ => .hidden (h.members r₃) fun found _ _ _ => ?_
  exact .hidden (overlooks_expectMark _ _) fun _ _ _ _ => .pure _

theorem members_succ : Overlooks x x.Hidden (Parse.members (fuel + 1)) r := by
  rw [Parse.members]
  refine .hidden (overlooks_before _) fun _ _ _ _ => .ite (fun _ => ?_) fun _ => .pure _
  refine .hidden (overlooks_accept id _) fun isStatic r₁ _ _ => .hidden (h.method r₁) fun m r₂ _ _ => ?_
  exact .hidden (h.members r₂) fun found _ _ _ => .pure _

theorem method_succ : Overlooks x x.Hidden (Parse.method (fuel + 1)) r := by
  rw [Parse.method]
  refine .hidden (overlooks_expectName _) fun name _ _ _ => ?_
  refine .hidden (overlooks_ifAccepted _ fun _ => overlooks_parameters fuel) fun params r₂ _ _ => ?_
  exact .hidden (h.routineBody true r₂) fun body _ _ _ => .pure _

/-! ## Statements -/

theorem varDeclaration_succ : Overlooks x Overlooks.Closed (Parse.varDeclaration (fuel + 1)) r := by
  rw [Parse.varDeclaration]
  refine .closed (overlooks_expectName _) fun name _ _ _ => ?_
  refine .upTo (overlooks_ifAccepted _ h.expression) (fun _ => (hungry_expectMark _ _).bind _) fun init _ _ _ => ?_
  exact .closed (overlooks_expectMark _ _) fun _ _ _ _ => .pure _

theorem statement_succ : Overlooks x (fun r' => Nests r → x.Hidden r') (Parse.statement (fuel + 1)) r := by
  refine .hungry ((rules _ (fuel + 1)).statement r) (fun _ _ hq => hq.1.1) fun hx => ?_
  rw [Parse.statement]
  refine .closed (overlooks_line fun _ => hx) fun line r₁ hr _ => ?_
  cases hr
  refine overlooks_choice hx (fun hk => ?_) fun _ => overlooks_choice hx (fun hk => ?_) fun _ => ?_
  · exact (h.forStatement _).weaken fun _ hC => hC (.inl hk)
  · exact (h.ifStatement _).weaken fun _ hC => hC (.inr (.inl hk))
  refine overlooks_choice hx (fun hk => ?_) fun _ => ?_
  · refine Overlooks.weaken ?_ fun r' (hC : Nests r → x.Hidden r') => hC (.inr (.inr hk))
    refine .hidden (overlooks_expectMark _ _) fun _ r₁ _ _ => .hidden (h.expression r₁) fun condition _ _ _ => ?_
    refine .hidden (overlooks_expectMark _ _) fun _ r₃ _ _ => .hidden ?_ fun body _ _ _ => .pure _
    exact (h.statement r₃).weaken fun _ hC _ => hC
  refine overlooks_choice hx (fun _ => ?_) fun _ => overlooks_choice hx (fun _ => ?_) fun _ => ?_
  · refine .upTo (overlooks_unlessAt _ h.expression) (fun _ => (hungry_expectMark _ _).bind _) fun value _ _ _ => ?_
    exact .closed (overlooks_expectMark _ _) fun _ _ _ _ => .pure _
  · exact .closed (overlooks_expectMark _ _) fun _ _ _ _ => .pure _
  refine overlooks_choice hx (fun _ => .closed (h.block _) fun body _ _ _ => .pure _) fun _ => ?_
  refine overlooks_choice hx (fun _ => ?_) fun _ => ?_
  · refine .upTo (h.expression _) (fun _ => (hungry_expectMark _ _).bind _) fun value _ _ _ => ?_
    exact .closed (overlooks_expectMark _ _) fun _ _ _ _ => .pure _
  · exact (h.expressionStatement r).weaken fun _ _ => trivial

theorem expressionStatement_succ : Overlooks x Overlooks.Closed (Parse.expressionStatement (fuel + 1)) r := by
  rw [Parse.expressionStatement]
  refine .upTo (h.expression r) (fun _ => (hungry_expectMark _ _).bind _) fun e _ _ _ => ?_
  exact .closed (overlooks_expectMark _ _) fun _ _ _ _ => .pure _

theorem ifStatement_succ : Overlooks x x.Hidden (Parse.ifStatement (fuel + 1)) r := by
  have branch : ∀ r, Overlooks x x.Hidden (Parse.statement fuel) r := fun r => (h.statement r).weaken fun _ hx _ => hx
  rw [Parse.ifStatement]
  refine .hidden (overlooks_expectMark _ _) fun _ r₁ _ _ => .hidden (h.expression r₁) fun condition _ _ _ => ?_
  refine .hidden (overlooks_expectMark _ _) fun _ r₃ _ _ => .hidden (branch r₃) fun thenBranch r₄ _ _ => ?_
  exact .hidden (overlooks_ifAccepted _ branch) fun elseBranch _ _ _ => .pure _

theorem forStatement_succ : Overlooks x x.Hidden (Parse.forStatement (fuel + 1)) r := by
  have body : ∀ r, Overlooks x x.Hidden (Parse.statement fuel) r := fun r => (h.statement r).weaken fun _ hx _ => hx
  rw [Parse.forStatement]
  refine .hidden (overlooks_expectMark _ _) fun _ r₁ _ _ => .hidden (h.forInitializer r₁) fun initializer _ _ _ => ?_
  refine .hidden (overlooks_unlessAt _ h.expression) fun condition _ _ _ => .hidden (overlooks_expectMark _ _) fun _ _ _ _ => ?_
  refine .hidden (overlooks_unlessAt _ h.expression) fun increment _ _ _ => .hidden (overlooks_expectMark _ _) fun _ r₆ _ _ => ?_
  exact .hidden (body r₆) fun _ _ _ _ => .pure _

theorem forInitializer_succ : Overlooks x x.Hidden (Parse.forInitializer (fuel + 1)) r := by
  rw [Parse.forInitializer]
  refine .hidden (overlooks_accept id _) fun _ _ _ _ => .ite (fun _ => .pure _) fun _ => ?_
  refine .hidden (overlooks_accept id _) fun _ r₁ _ _ => .ite (fun _ => ?_) fun _ => ?_
  · exact .hidden ((h.varDeclaration r₁).weaken fun _ _ => trivial) fun st _ _ _ => .pure _
  · exact .hidden ((h.expressionStatement r₁).weaken fun _ _ => trivial) fun st _ _ _ => .pure _

end

end Overlooking

theorem overlooking (x : Sequel) : ∀ fuel, Overlooking x fuel
  | 0 => .zero
  | fuel + 1 =>
    have h := overlooking x fuel
    { expression := h.expression_succ
      operand := fun level r => h.operand_succ r level
      operatorChain := fun level left r => h.operatorChain_succ r level left
      unary := h.unary_succ
      suffixes := fun head r => h.suffixes_succ r head
      argumentList := fun count r => h.argumentList_succ r count
      primary := h.primary_succ
      routineBody := fun closed r => h.routineBody_succ r closed
      block := h.block_succ
      declarations := h.declarations_succ
      declaration := h.declaration_succ
      classDeclaration := h.classDeclaration_succ
      members := h.members_succ
      method := h.method_succ
      varDeclaration := h.varDeclaration_succ
      statement := h.statement_succ
      expressionStatement := h.expressionStatement_succ
      ifStatement := h.ifStatement_succ
      forStatement := h.forStatement_succ
      forInitializer := h.forInitializer_succ }

theorem overlooks_program (x : Sequel) : ∀ (fuel : Nat) (r : Reader), Overlooks x x.Hidden (program fuel) r
  | 0, _ => .exhausted
  | fuel + 1, r => by
    rw [program]
    refine .hidden (overlooks_kind id) fun kind r₁ _ _ => ?_
    cases kind with
    | none => exact .pure _
    | some kind =>
      exact .hidden ((overlooking x fuel).declaration r₁) fun first r₂ _ _ =>
        .hidden (overlooks_program x fuel r₂) fun rest _ _ _ => .pure _

end Parse

end Lox
