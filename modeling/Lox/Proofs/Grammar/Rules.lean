import Lox.Proofs.Grammar.Parts

/-!
# Every rule of the grammar

One statement a rule: how much fuel it needs, and that what it reads is a proper tree with
identities of its own. Each follows from the statements with one unit of fuel less.
-/

namespace Lox

namespace Parse

open Reader

section
variable (P : Name → Prop)

def StmtRead (r : Reader) (st : Stmt) (r' : Reader) : Prop :=
  r'.tokens.length < r.tokens.length ∧ Spans r.nextId r'.nextId st.ids ∧ st.Proper P ⊤

/-- A statement that declares no name, as the branches of a conditional must be. -/
def InnerRead (r : Reader) (st : Stmt) (r' : Reader) : Prop := StmtRead P r st r' ∧ st.declares = []

def BodyRead (r : Reader) (sts : List Stmt) (r' : Reader) : Prop :=
  Spans r.nextId r'.nextId (idsStmts sts) ∧ ProperStmts P ⊤ sts

def MethodRead (r : Reader) (m : Method) (r' : Reader) : Prop :=
  r'.tokens.length < r.tokens.length ∧ Spans r.nextId r'.nextId m.ids ∧ m.Proper P ⊤

def MembersRead (r : Reader) (members : List Method × List Method) (r' : Reader) : Prop :=
  Spans r.nextId r'.nextId (idsMethods members.2 ++ idsMethods members.1) ∧
    ProperMethods P ⊤ members.1 ∧ ProperMethods P ⊤ members.2

/-- What the rules promise with this fuel. The numbers are how many rules deep each can be when it
reads its first token. -/
structure Rules (fuel : Nat) : Prop where
  expression : ∀ r, Meets P (expression fuel) r (fuel < r.need 10) (ExprRead P r)
  operand : ∀ level r, Meets P (operand fuel level) r (fuel < r.need (3 + (Connective.levels - level))) (ExprRead P r)
  operatorChain : ∀ level left lo r, Spans lo r.nextId left.ids → left.Proper P ⊤ →
    Meets P (operatorChain fuel level left) r (fuel < r.need 1) fun e r' => Spans lo r'.nextId e.ids ∧ e.Proper P ⊤
  unary : ∀ r, Meets P (unary fuel) r (fuel < r.need 2) (ExprRead P r)
  suffixes : ∀ head lo r, Spans lo r.nextId head.ids → head.Proper P ⊤ →
    Meets P (suffixes fuel head) r (fuel < r.need 1) fun e r' => Spans lo r'.nextId e.ids ∧ e.Proper P ⊤
  argumentList : ∀ count r, Meets P (argumentList fuel count) r (fuel < r.need 11) fun es r' =>
    Spans r.nextId r'.nextId (idsExprs es) ∧ ProperExprs P ⊤ es
  primary : ∀ r, Meets P (primary fuel) r (fuel < r.need 1) (ExprRead P r)
  routineBody : ∀ closed r, Meets P (routineBody fuel closed) r (fuel < r.need 1) fun sts r' =>
    r'.tokens.length < r.tokens.length ∧ BodyRead P r sts r'
  block : ∀ r, Meets P (block fuel) r (fuel < r.need 15) (BodyRead P r)
  declarations : ∀ r, Meets P (declarations fuel) r (fuel < r.need 14) (BodyRead P r)
  declaration : ∀ r, r.tokens ≠ [] → Meets P (declaration fuel) r (fuel < r.need 13) fun st r' =>
    r'.tokens.length < r.tokens.length ∧ BodyRead P r st.toList r' ∧ (st = none → r.errors.length < r'.errors.length)
  classDeclaration : ∀ r, Meets P (classDeclaration fuel) r (fuel < r.need 1) (StmtRead P r)
  members : ∀ r, Meets P (members fuel) r (fuel < r.need 2) (MembersRead P r)
  method : ∀ r, Meets P (method fuel) r (fuel < r.need 1) (MethodRead P r)
  varDeclaration : ∀ r, Meets P (varDeclaration fuel) r (fuel < r.need 1) (StmtRead P r)
  statement : ∀ r, Meets P (statement fuel) r (fuel < r.need 12) (InnerRead P r)
  expressionStatement : ∀ r, Meets P (expressionStatement fuel) r (fuel < r.need 11) (InnerRead P r)
  ifStatement : ∀ r, Meets P (ifStatement fuel) r (fuel < r.need 1) (InnerRead P r)
  forStatement : ∀ r, Meets P (forStatement fuel) r (fuel < r.need 1) (InnerRead P r)
  forInitializer : ∀ r, Meets P (forInitializer fuel) r (fuel < r.need 12) fun init r' =>
    BodyRead P r init.toList r'

end

namespace Rules

variable {P : Name → Prop} {fuel : Nat}

theorem zero : Rules P 0 := by
  have h : ∀ {r : Reader} {rank}, 1 ≤ rank → 0 < r.need rank := fun h => Nat.lt_of_lt_of_le h (Nat.le_add_left ..)
  constructor
  all_goals intros; exact .exhausted (h (by simp +arith))

/-! ## Expressions -/

theorem expression_succ (h : Rules P fuel) (r : Reader) :
    Meets P (Parse.expression (fuel + 1)) r (fuel + 1 < r.need 10) (ExprRead P r) := by
  rw [Parse.expression]
  refine (h.operand 0 r).bind (need_of_lower (Nat.le_refl _) (by decide)) fun target r₁ h₁ ⟨hlt, hs, hp⟩ => ?_
  refine .first meets_acceptAssignment fun found r₂ h₂ hop => ?_
  have hlt₂ : r₂.tokens.length < r.tokens.length := Nat.lt_of_le_of_lt h₂.length_le hlt
  split
  · exact .pure ⟨hlt₂, hs.widen h₂.ids, hp⟩
  · refine (h.expression r₂).bind (need_of_read hlt₂ (by decide) · (by decide)) fun value r₃ h₃ ⟨hl₃, hv, hpv⟩ => ?_
    refine (meets_assignTo ((hs.widen h₂.ids).append hv) hp hpv _ _).imp False.elim fun e r₄ h₄ he => ?_
    exact ⟨Nat.lt_of_le_of_lt h₄.length_le (Nat.lt_trans hl₃ hlt₂), he⟩
  · rename_i op site
    refine (h.expression r₂).bind (need_of_read hlt₂ (by decide) · (by decide)) fun value r₃ h₃ ⟨hl₃, hv, hpv⟩ => ?_
    refine (meets_updateBy ((hs.widen h₂.ids).append hv) (hop op site rfl) hp hpv _ _).imp False.elim fun e r₄ h₄ he => ?_
    exact ⟨Nat.lt_of_le_of_lt h₄.length_le (Nat.lt_trans hl₃ hlt₂), he⟩

theorem operand_succ (h : Rules P fuel) (level : Nat) (r : Reader) :
    Meets P (Parse.operand (fuel + 1) level) r (fuel + 1 < r.need (3 + (Connective.levels - level))) (ExprRead P r) := by
  rw [Parse.operand]
  refine .ite (fun hlv => ?_) fun _ => (h.unary r).imp (need_of_lower (Nat.le_refl _) (by omega)) fun _ _ _ he => he
  refine (h.operand (level + 1) r).bind (need_of_lower (Nat.le_refl _) (by omega)) fun left r₁ h₁ ⟨hlt, hs, hp⟩ => ?_
  refine (h.operatorChain level left _ r₁ hs hp).imp (need_of_lower h₁.length_le (by omega)) fun e r₂ h₂ he => ?_
  exact ⟨Nat.lt_of_le_of_lt h₂.length_le hlt, he⟩

theorem operatorChain_succ (h : Rules P fuel) (level : Nat) (left : Expr) (lo : NodeId) (r : Reader)
    (hs : Spans lo r.nextId left.ids) (hp : left.Proper P ⊤) :
    Meets P (Parse.operatorChain (fuel + 1) level left) r (fuel + 1 < r.need 1) fun e r' =>
      Spans lo r'.nextId e.ids ∧ e.Proper P ⊤ := by
  rw [Parse.operatorChain]
  refine .first (meets_acceptConnective level) fun found r₁ h₁ hc => ?_
  split
  · exact .pure ⟨hs.widen h₁.ids, hp⟩
  · rename_i c line
    obtain ⟨hc, hlt⟩ := hc _ rfl
    refine (h.operand (level + 1) r₁).bind (need_of_read hlt (by unfold Connective.levels rulesPerToken; omega) · (by decide)) ?_
    intro right r₂ h₂ h
    obtain ⟨hl₂, hr, hpr⟩ := h
    refine (h.operatorChain level _ lo r₂ ?_ (hc.join line hp hpr)).imp
      (need_of_read (Nat.lt_trans hl₂ hlt) (by decide) · (by decide)) fun _ _ _ he => he
    rw [Connective.join_ids]
    exact (hs.widen h₁.ids).append hr

theorem unary_succ (h : Rules P fuel) (r : Reader) :
    Meets P (Parse.unary (fuel + 1)) r (fuel + 1 < r.need 2) (ExprRead P r) := by
  rw [Parse.unary]
  refine .first meets_acceptLeading fun found r₁ h₁ hf => ?_
  split
  · obtain ⟨hop, hlt⟩ := hf _ rfl
    refine (h.unary r₁).bind (need_of_read hlt (by decide) · (by decide)) fun e r₂ _ ⟨hl, hs, hp⟩ => .pure ?_
    exact ⟨Nat.lt_trans hl hlt, hs.widenLeft h₁.ids, hop, hp⟩
  · obtain ⟨hop, hlt⟩ := hf _ rfl
    refine (h.unary r₁).bind (need_of_read hlt (by decide) · (by decide)) fun target r₂ _ ⟨hl, hs, hp⟩ => ?_
    have hs : Spans r.nextId r₂.nextId (target.ids ++ []) := by simpa using hs.widenLeft h₁.ids
    have one : (Expr.literal (.number 1)).Proper P ⊤ := trivial
    refine (meets_updateBy hs hop hp one _ _).imp False.elim fun e r₃ h₃ he => ?_
    exact ⟨Nat.lt_of_le_of_lt h₃.length_le (Nat.lt_trans hl hlt), he⟩
  · refine (h.primary r₁).bind (need_of_lower h₁.length_le (by decide)) fun head r₂ _ ⟨hl, hs, hp⟩ => ?_
    have hl : r₂.tokens.length < r.tokens.length := Nat.lt_of_lt_of_le hl h₁.length_le
    refine (h.suffixes head _ r₂ (hs.widenLeft h₁.ids) hp).imp (need_of_read hl (by decide) · (by decide)) ?_
    exact fun e r₃ h₃ he => ⟨Nat.lt_of_le_of_lt h₃.length_le hl, he⟩

theorem suffixes_succ (h : Rules P fuel) (head : Expr) (lo : NodeId) (r : Reader) (hs : Spans lo r.nextId head.ids)
    (hp : head.Proper P ⊤) :
    Meets P (Parse.suffixes (fuel + 1) head) r (fuel + 1 < r.need 1) fun e r' =>
      Spans lo r'.nextId e.ids ∧ e.Proper P ⊤ := by
  rw [Parse.suffixes]
  refine .first (meets_accept _) fun found r₁ h₁ hf => .ite (fun ht => ?_) fun _ => ?_
  · have hlt := hf ht
    refine (meets_unlessAt .rightParen (h.argumentList 0 r₁)).bind (need_of_read hlt (by decide) · (by decide)) ?_
    rintro arguments r₂ h₂ ha
    have ha : Spans r₁.nextId r₂.nextId (idsExprs (arguments.getD [])) ∧ ProperExprs P ⊤ (arguments.getD []) := by
      cases arguments with
      | none => exact ⟨.nil h₂.ids, trivial⟩
      | some es => exact ha es rfl
    refine .first (meets_expectMark _ _) fun line r₃ h₃ hl₃ => ?_
    have hs : Spans lo r₃.nextId (head.ids ++ idsExprs (arguments.getD [])) :=
      ((hs.widen h₁.ids).append ha.1).widen h₃.ids
    refine (h.suffixes (.call head line (arguments.getD [])) lo r₃ hs ⟨hp, ha.2⟩).imp
      (need_of_read ?_ (by decide) · (by decide)) fun _ _ _ he => he
    exact Nat.lt_trans hl₃ (Nat.lt_of_le_of_lt h₂.length_le hlt)
  · refine .first (meets_accept _) fun found r₂ h₂ hf => .ite (fun ht => ?_) fun _ => ?_
    · refine .first (meets_expectName _) fun name r₃ h₃ ⟨hl, _⟩ => ?_
      have hs := hs.widen ((h₁.trans h₂).trans h₃).ids
      have hlt : r₃.tokens.length < r.tokens.length :=
        Nat.lt_of_lt_of_le hl (Nat.le_trans h₂.length_le h₁.length_le)
      exact (h.suffixes (.get head name) lo r₃ hs hp).imp (need_of_read hlt (by decide) · (by decide)) fun _ _ _ he => he
    · exact .pure ⟨hs.widen (h₁.trans h₂).ids, hp⟩

theorem argumentList_succ (h : Rules P fuel) (count : Nat) (r : Reader) :
    Meets P (Parse.argumentList (fuel + 1) count) r (fuel + 1 < r.need 11) fun es r' =>
      Spans r.nextId r'.nextId (idsExprs es) ∧ ProperExprs P ⊤ es := by
  rw [Parse.argumentList]
  refine .first (meets_checkCount _ _) fun _ r₁ h₁ _ => ?_
  refine (h.expression r₁).bind (need_of_lower h₁.length_le (by decide)) fun e r₂ h₂ ⟨hl, hs, hp⟩ => ?_
  have hs := hs.widenLeft h₁.ids
  refine .first (meets_accept _) fun found r₃ h₃ _ => .ite (fun _ => ?_) fun _ => .pure ⟨?_, hp, trivial⟩
  · have hlt : r₃.tokens.length < r.tokens.length :=
      Nat.lt_of_le_of_lt h₃.length_le (Nat.lt_of_lt_of_le hl h₁.length_le)
    refine (h.argumentList (count + 1) r₃).bind (need_of_read hlt (by decide) · (by decide)) ?_
    intro es r₄ _ h
    obtain ⟨hes, hps⟩ := h
    exact .pure ⟨(hs.widen h₃.ids).append hes, hp, hps⟩
  · simpa [idsExprs] using hs.widen h₃.ids

theorem primary_succ (h : Rules P fuel) (r : Reader) :
    Meets P (Parse.primary (fuel + 1)) r (fuel + 1 < r.need 1) (ExprRead P r) := by
  rw [Parse.primary]
  refine .first meets_atom fun found r₁ h₁ ha => ?_
  split
  · exact .pure (ha _ rfl)
  · refine .first meets_line fun line r₂ h₂ _ => .first (meets_accept _) fun found r₃ h₃ hf => ?_
    have h₀ := h₁.trans h₂
    refine .ite (fun ht => ?_) fun _ => ?_
    · have hlt : r₃.tokens.length < r.tokens.length := Nat.lt_of_lt_of_le (hf ht) h₀.length_le
      refine (h.expression r₃).bind (need_of_read hlt (by decide) · (by decide)) fun e r₄ h₄ ⟨hl, hs, hp⟩ => ?_
      refine .first (meets_expectMark _ _) fun _ r₅ h₅ hl₅ => .pure ⟨?_, ?_, hp⟩
      · exact Nat.lt_trans hl₅ (Nat.lt_trans hl hlt)
      · exact (hs.widenLeft (h₀.trans h₃).ids).widen h₅.ids
    · refine .first (meets_accept _) fun found r₄ h₄ hf => .ite (fun ht => ?_) fun _ => meets_fail _
      refine .first (meets_expectMark _ _) fun _ r₅ h₅ hl₅ => ?_
      have h₀ := ((h₀.trans h₃).trans h₄).trans h₅
      have hlt : r₅.tokens.length < r.tokens.length :=
        Nat.lt_of_lt_of_le hl₅ ((h₁.trans h₂).trans (h₃.trans h₄)).length_le
      refine (meets_parameters fuel r₅).bind (need_of_read hlt (by decide) · (by decide)) fun params r₆ h₆ ⟨hl₆, hps⟩ => ?_
      have hlt := Nat.lt_trans hl₆ hlt
      refine (h.routineBody false r₆).bind (need_of_read hlt (by decide) · (by decide)) fun body r₇ _ ⟨hl₇, hs, hp⟩ => ?_
      exact .pure ⟨Nat.lt_trans hl₇ hlt, hs.widenLeft (h₀.trans h₆).ids, hps, hp⟩

end Rules

end Parse

end Lox
