import Lox.Proofs.Grammar.Documented
import Lox.Proofs.Grammar.Spelled
import Lox.Source.Item

/-!
# Nothing is lost

Every rule of the grammar gives what is written with the tokens that it has read. So a program that is read without
errors, and without shorthands, is its text: written out again it is the same sequence of tokens, and the documented
grammar derives it.
-/

namespace Lox

open Token (Kind)

namespace Parse

/-- Every rule with this fuel. A rule that comes after a keyword is to be seen with it. -/
structure Spelling (fuel : Nat) : Prop where
  expression : Spells (expression fuel) fun e ks _ => e.Spelled True Rank.assignment ks
  operand (level : Nat) : level ≤ Connective.levels → Spells (operand fuel level) fun e ks _ => e.Spelled True (level + 1) ks
  operatorChain (level : Nat) (left : Expr) : level < Connective.levels →
    Spells (operatorChain fuel level left) fun e ks _ =>
      ∀ kl, left.Spelled True (level + 1) kl → e.Spelled True (level + 1) (kl ++ ks)
  unary : Spells (unary fuel) fun e ks _ => e.Spelled True Rank.unary ks
  suffixes (head : Expr) : Spells (suffixes fuel head) fun e ks _ =>
    ∀ kh, head.Spelled True Rank.call kh → e.Spelled True Rank.call (kh ++ ks)
  argumentList (count : Nat) : Spells (argumentList fuel count) fun es ks _ =>
    es ≠ [] ∧ WrittenExprs es ks ∧ FitsExprs True es ∧ count + es.length ≤ maxArity
  primary : Spells (primary fuel) fun e ks _ => e.Spelled True Rank.primary ks
  routineBody (closed : Bool) : Spells (routineBody fuel closed) fun body ks _ => BodySpelled True True closed body ks
  block : Spells (block fuel) fun body ks _ =>
    ∃ inner, ks = inner ++ [.mark .rightBrace] ∧ WrittenStmts body inner ∧ FitsStmts True body
  declarations : Spells (declarations fuel) fun sts ks _ => WrittenStmts sts ks ∧ FitsStmts True sts
  declaration : Spells (declaration fuel) fun found ks _ => ∃ st, found = some st ∧ st.Written ks ∧ st.Fits True
  classDeclaration : Spells (classDeclaration fuel) fun st ks _ => st.Written (.keyword .klass :: ks) ∧ st.Fits True
  members : Spells (members fuel) fun ms ks _ => MembersSpelled True ms.1 ms.2 ks
  method : Spells (method fuel) fun m ks _ => m.Written ks ∧ m.Fits True
  varDeclaration : Spells (varDeclaration fuel) fun st ks _ => st.Written (.keyword .var :: ks) ∧ st.Fits True
  statement : Spells (statement fuel) (Stmt.Spelled True)
  expressionStatement : Spells (expressionStatement fuel) (Stmt.Spelled True)
  ifStatement : Spells (ifStatement fuel) fun st ks rest => st.Spelled True (.keyword .if :: ks) rest

namespace Spelling

theorem zero : Spelling 0 where
  expression := .exhausted
  operand _ _ := .exhausted
  operatorChain _ _ _ := .exhausted
  unary := .exhausted
  suffixes _ := .exhausted
  argumentList _ := .exhausted
  primary := .exhausted
  routineBody _ := .exhausted
  block := .exhausted
  declarations := .exhausted
  declaration := .exhausted
  classDeclaration := .exhausted
  members := .exhausted
  method := .exhausted
  varDeclaration := .exhausted
  statement := .exhausted
  expressionStatement := .exhausted
  ifStatement := .exhausted

section
variable {fuel : Nat} (h : Spelling fuel)
include h

/-! ### Expressions -/

theorem expression_succ : Spells (Parse.expression (fuel + 1)) fun e ks _ => e.Spelled True Rank.assignment ks := by
  rw [Parse.expression]
  refine (h.operand 0 (Nat.zero_le _)).bind fun target kt => spells_acceptAssignment.bind fun found ks => ?_
  rcases found with _ | ⟨_ | op, site⟩
  case none =>
    refine .pure ?_
    rintro rest (⟨-, rfl⟩ | ⟨_, _, _, ⟨⟩, -⟩) ht
    rw [List.append_nil, List.append_nil]
    exact ht.weaken (Nat.zero_le _)
  case some.store =>
    refine h.expression.bind fun value kv => (spells_assignTo target value kt kv _ _).imp ?_
    rintro e ks' rest ⟨rfl, he⟩ hv (⟨⟨⟩, -⟩ | ⟨_, _, m, hs, rfl, hm, -⟩) ht
    cases hs
    have hm : m = .equal := by cases m <;> cases hm; rfl
    subst hm
    rw [List.append_nil]
    exact he ht hv
  case some.combine =>
    refine h.expression.bind fun value kv => (spells_updateBy _ _ _ _ _).imp ?_
    rintro e ks' rest - - (⟨⟨⟩, -⟩ | ⟨_, _, m, hs, rfl, hm, hp⟩)
    cases hs
    cases m <;> cases hm <;> cases hp

theorem operand_succ (level : Nat) (hle : level ≤ Connective.levels) :
    Spells (Parse.operand (fuel + 1) level) fun e ks _ => e.Spelled True (level + 1) ks := by
  rw [Parse.operand]
  refine .ite (fun hlt => ?_) fun hge => ?_
  · refine (h.operand (level + 1) hlt).bind fun left kl => (h.operatorChain level left hlt).imp fun e ks rest he hl => ?_
    exact he kl (hl.weaken (Nat.le_succ _))
  · obtain rfl : level = Connective.levels := Nat.le_antisymm hle (Nat.le_of_not_lt hge)
    exact h.unary

theorem operatorChain_succ (level : Nat) (left : Expr) (hlt : level < Connective.levels) :
    Spells (Parse.operatorChain (fuel + 1) level left) fun e ks _ =>
      ∀ kl, left.Spelled True (level + 1) kl → e.Spelled True (level + 1) (kl ++ ks) := by
  rw [Parse.operatorChain]
  refine (spells_acceptConnective level).bind fun found ks => ?_
  rcases found with _ | ⟨c, line⟩
  case none =>
    refine .pure ?_
    rintro rest (⟨-, rfl⟩ | ⟨_, _, _, ⟨⟩, -⟩) kl hl
    rwa [List.append_nil, List.append_nil]
  case some =>
    refine (h.operand (level + 1) hlt).bind fun right kr => (h.operatorChain level _ hlt).imp ?_
    rintro e ks' rest he hr (⟨⟨⟩, -⟩ | ⟨_, _, kind, hs, rfl, hc⟩) kl hl
    cases hs
    have hjoin := he _ (Connective.spelled hc hl hr)
    rwa [List.append_assoc] at hjoin

theorem unary_succ : Spells (Parse.unary (fuel + 1)) fun e ks _ => e.Spelled True Rank.unary ks := by
  rw [Parse.unary]
  refine spells_acceptLeading.bind fun found ks => ?_
  rcases found with _ | ⟨op | op, site⟩
  case some.operator =>
    refine h.unary.bind fun e ke => .pure ?_
    rintro rest he (⟨⟨⟩, -⟩ | ⟨_, _, m, hs, rfl, hm, -⟩)
    cases hs
    have hop : m = op ∧ op.isUnary = true := by cases m <;> cases hm <;> exact ⟨rfl, rfl⟩
    obtain ⟨rfl, hop⟩ := hop
    rw [List.append_nil]
    exact ⟨⟨ke, rfl, he.written⟩, ⟨hop, he.rank, he.fits⟩, Nat.le_refl _⟩
  case some.increment =>
    refine h.unary.bind fun target kt => (spells_updateBy _ _ _ _ _).imp ?_
    rintro e ks' rest - - (⟨⟨⟩, -⟩ | ⟨_, _, m, hs, rfl, hm, hp⟩)
    cases hs
    cases m <;> cases hm <;> cases hp
  case none =>
    refine h.primary.bind fun head kh => (h.suffixes head).imp ?_
    rintro e ks' rest he hh (⟨-, rfl⟩ | ⟨_, _, _, ⟨⟩, -⟩)
    exact (he kh (hh.weaken (by decide))).weaken (by decide)

theorem suffixes_succ (head : Expr) : Spells (Parse.suffixes (fuel + 1) head) fun e ks _ =>
    ∀ kh, head.Spelled True Rank.call kh → e.Spelled True Rank.call (kh ++ ks) := by
  rw [Parse.suffixes]
  refine spells_choice _ ?_ (spells_choice _ ?_ (.pure fun rest _ _ kh hh => by rwa [List.append_nil]))
  · refine (spells_unlessAt _ (h.argumentList 0)).bind fun found ka => spells_mark _ _ fun line => (h.suffixes _).imp ?_
    intro e ks rest he hargs _ kh hh
    have hcall : (Expr.call head line (found.getD [])).Spelled True Rank.call
        (kh ++ .mark .leftParen :: ka ++ [.mark .rightParen]) := by
      rcases hargs with ⟨rfl, rfl⟩ | ⟨es, rfl, -, hw, hf, hlen⟩
      · exact ⟨⟨kh, [], rfl, hh.written, rfl⟩, ⟨hh.rank, Nat.zero_le _, hh.fits, trivial⟩, Nat.le_refl _⟩
      · exact ⟨⟨kh, ka, rfl, hh.written, hw⟩, ⟨hh.rank, by simpa using hlen, hh.fits, hf⟩, Nat.le_refl _⟩
    have he := he _ hcall
    simpa only [List.append_assoc, List.cons_append, List.nil_append] using he
  · refine spells_name _ fun name => (h.suffixes _).imp fun e ks rest he _ _ kh hh => ?_
    have hget : (Expr.get head name).Spelled True Rank.call (kh ++ [.mark .dot, .identifier name.text]) :=
      ⟨⟨kh, rfl, hh.written⟩, ⟨hh.rank, hh.fits⟩, Nat.le_refl _⟩
    have he := he _ hget
    rwa [List.append_assoc] at he

theorem argumentList_succ (count : Nat) : Spells (Parse.argumentList (fuel + 1) count) fun es ks _ =>
    es ≠ [] ∧ WrittenExprs es ks ∧ FitsExprs True es ∧ count + es.length ≤ maxArity := by
  rw [Parse.argumentList]
  refine (spells_checkCount count _).bind fun _ ks => h.expression.bind fun e ke => spells_choice _ ?_ (.pure ?_)
  · refine (h.argumentList (count + 1)).bind fun es kes => .pure ?_
    rintro rest ⟨hne, hw, hf, hlen⟩ - he ⟨rfl, -⟩
    refine ⟨List.cons_ne_nil _ _, ?_, ⟨he.fits, hf⟩, by rw [List.length_cons]; omega⟩
    cases es with
    | nil => exact absurd rfl hne
    | cons e' es => exact ⟨ke, kes, by simp, he.written, hw⟩
  · rintro rest - he ⟨rfl, hlt⟩
    have hw : WrittenExprs [e] ([] ++ (ke ++ [])) := by
      simpa only [List.nil_append, List.append_nil, WrittenExprs] using he.written
    exact ⟨List.cons_ne_nil _ _, hw, ⟨he.fits, trivial⟩, hlt⟩

theorem primary_succ : Spells (Parse.primary (fuel + 1)) fun e ks _ => e.Spelled True Rank.primary ks := by
  rw [Parse.primary]
  refine spells_atom.bind fun found ks => ?_
  cases found with
  | some e =>
    refine .pure ?_
    rintro rest (⟨⟨⟩, -⟩ | ⟨_, he, hs⟩)
    cases he
    rwa [List.append_nil]
  | none =>
    refine spells_silent spells_line fun line => spells_choice _ ?_ (spells_choice _ ?_ (.fail _))
    · refine h.expression.bind fun inner ke => spells_mark _ _ fun _ => .pure ?_
      rintro rest he - (⟨-, rfl⟩ | ⟨_, ⟨⟩, -⟩)
      exact ⟨⟨ke, rfl, he.written⟩, he.fits, Nat.le_refl _⟩
    · refine spells_mark _ _ fun _ => (spells_parameters fuel).bind fun params kp => ?_
      refine (h.routineBody false).bind fun body kb => .pure ?_
      rintro rest hb ⟨hp, hlen⟩ - - (⟨-, rfl⟩ | ⟨_, ⟨⟩, -⟩)
      obtain ⟨hw, hf⟩ := hb.routine false hlen
      rw [← hp] at hw
      exact ⟨⟨_, by simp, hw⟩, hf, Nat.le_refl _⟩

/-! ### Functions and classes -/

theorem routineBody_succ (closed : Bool) :
    Spells (Parse.routineBody (fuel + 1) closed) fun body ks _ => BodySpelled True True closed body ks := by
  rw [Parse.routineBody]
  refine spells_silent spells_line fun line => spells_choice _ ?_ (spells_choice _ ?_ (.fail _))
  · refine h.block.imp ?_
    rintro body ks rest ⟨inner, rfl, hw, hf⟩ -
    exact .inl ⟨hf, inner, rfl, hw⟩
  · refine h.expression.bind fun value ke => (spells_endBody closed).bind fun _ ks => .pure ?_
    rintro rest rfl he - -
    exact .inr ⟨trivial, he.fits, ke, by simp, he.written⟩

theorem block_succ : Spells (Parse.block (fuel + 1)) fun body ks _ =>
    ∃ inner, ks = inner ++ [.mark .rightBrace] ∧ WrittenStmts body inner ∧ FitsStmts True body := by
  rw [Parse.block]
  exact h.declarations.bind fun body inner => spells_mark _ _ fun _ => .pure fun _ hb => ⟨inner, rfl, hb⟩

theorem declarations_succ :
    Spells (Parse.declarations (fuel + 1)) fun sts ks _ => WrittenStmts sts ks ∧ FitsStmts True sts := by
  rw [Parse.declarations]
  refine spells_silent (spells_before _) fun _ => .ite (fun _ => ?_) fun _ => .pure fun _ => ⟨rfl, trivial⟩
  refine h.declaration.bind fun found k => h.declarations.bind fun sts kr => .pure ?_
  rintro rest ⟨hw, hf⟩ ⟨st, rfl, hst⟩
  exact ⟨⟨k, kr, by simp, hst.1, hw⟩, hst.2, hf⟩

theorem declaration_succ :
    Spells (Parse.declaration (fuel + 1)) fun found ks _ => ∃ st, found = some st ∧ st.Written ks ∧ st.Fits True := by
  rw [Parse.declaration]
  refine spells_recover (Q := fun (st : Stmt) ks _ => st.Written ks ∧ st.Fits True)
    (spells_choice _ ?_ (spells_functionDeclaration ?_ (spells_choice _ ?_ ?_)))
  · exact h.classDeclaration.imp fun st ks rest hst _ => hst
  · refine spells_name _ fun name => spells_mark _ _ fun _ => (spells_parameters fuel).bind fun params kp => ?_
    refine (h.routineBody true).bind fun body kb => .pure ?_
    rintro rest hb ⟨hp, hlen⟩ -
    obtain ⟨hw, hf⟩ := hb.routine false hlen
    rw [← hp] at hw
    exact ⟨⟨_, by simp, hw⟩, hf⟩
  · exact h.varDeclaration.imp fun st ks rest hst _ _ => hst
  · exact h.statement.imp fun st ks rest hst _ _ => ⟨hst.written, hst.fits⟩

theorem classDeclaration_succ :
    Spells (Parse.classDeclaration (fuel + 1)) fun st ks _ => st.Written (.keyword .klass :: ks) ∧ st.Fits True := by
  rw [Parse.classDeclaration]
  refine spells_name _ fun name => spells_superclass.bind fun ref kr => spells_mark _ _ fun _ => ?_
  refine h.members.bind fun found km => spells_mark _ _ fun _ => .pure ?_
  obtain ⟨methods, statics⟩ := found
  rintro rest ⟨ms, ss, members, rfl, hm, hs, hi, hfm, hfs⟩ rfl
  exact ⟨⟨ms, ss, members, by simp, hm, hs, hi⟩, hfm, hfs⟩

theorem members_succ : Spells (Parse.members (fuel + 1)) fun ms ks _ => MembersSpelled True ms.1 ms.2 ks := by
  rw [Parse.members]
  refine spells_silent (spells_before _) fun _ => .ite (fun _ => ?_) fun _ => ?_
  · refine (spells_accept _).bind fun isStatic ks => h.method.bind fun m k => ?_
    refine h.members.bind fun found kr => .pure ?_
    obtain ⟨methods, statics⟩ := found
    rintro rest ⟨ms, ss, members, rfl, hm, hs, hi, hfm, hfs⟩ ⟨hw, hf⟩ hks
    cases isStatic with
    | true =>
      obtain ⟨rfl, -⟩ := hks
      exact ⟨ms, k :: ss, (.keyword .klass :: k) :: members, by simp, hm, ⟨k, ss, rfl, hw, hs⟩, .right hi, hfm, hf, hfs⟩
    | false =>
      obtain ⟨rfl, -⟩ := hks
      exact ⟨k :: ms, ss, k :: members, by simp, ⟨k, ms, rfl, hw, hm⟩, hs, .left hi, ⟨hf, hfm⟩, hfs⟩
  · exact .pure fun _ => ⟨[], [], [], rfl, rfl, rfl, .nil, trivial, trivial⟩

theorem method_succ : Spells (Parse.method (fuel + 1)) fun m ks _ => m.Written ks ∧ m.Fits True := by
  rw [Parse.method]
  refine spells_name _ fun name => (spells_ifAccepted _ (spells_parameters fuel)).bind fun found kp => ?_
  refine (h.routineBody true).bind fun body kb => .pure ?_
  rintro rest hb (⟨rfl, rfl, -⟩ | ⟨params, ks, rfl, rfl, hp, hlen⟩)
  · obtain ⟨hw, hf⟩ := hb.routine true (show [].length ≤ maxArity from Nat.zero_le _)
    exact ⟨⟨_, by simp [parameterKinds], hw⟩, fun _ => rfl, hf⟩
  · obtain ⟨hw, hf⟩ := hb.routine false hlen
    rw [← hp] at hw
    exact ⟨⟨_, by simp, hw⟩, Bool.noConfusion, hf⟩

/-! ### Statements -/

theorem varDeclaration_succ :
    Spells (Parse.varDeclaration (fuel + 1)) fun st ks _ => st.Written (.keyword .var :: ks) ∧ st.Fits True := by
  rw [Parse.varDeclaration]
  refine spells_name _ fun name => (spells_ifAccepted _ h.expression).bind fun found ks => spells_mark _ _ fun _ => .pure ?_
  rintro rest (⟨rfl, rfl, -⟩ | ⟨e, ke, rfl, rfl, he⟩)
  · exact ⟨rfl, trivial⟩
  · exact ⟨⟨ke, rfl, he.written⟩, he.fits⟩

theorem statement_succ : Spells (Parse.statement (fuel + 1)) (Stmt.Spelled True) := by
  rw [Parse.statement]
  refine spells_silent spells_line fun line => spells_choice _ ?_ (spells_choice _ ?_ (spells_choice _ ?_ ?_))
  · exact (Spells.of_meets (rules _ fuel).forStatement).imp fun _ _ _ _ => Bool.noConfusion
  · exact h.ifStatement.imp fun st ks rest hst _ _ => hst
  · refine spells_mark _ _ fun _ => h.expression.bind fun c kc => spells_mark _ _ fun _ => ?_
    refine h.statement.bind fun body kb => .pure ?_
    intro rest hb hc _ _ _
    exact ⟨⟨kc, kb, by simp, hc.written, hb.written⟩, ⟨hc.fits, hb.inner, hb.fits⟩, rfl, hb.closed⟩
  refine spells_choice _ ?_ (spells_choice _ ?_ (spells_choice _ ?_ (spells_choice _ ?_ ?_)))
  · refine (spells_unlessAt _ h.expression).bind fun found ks => spells_mark _ _ fun _ => .pure ?_
    rintro rest (⟨rfl, rfl⟩ | ⟨e, rfl, he⟩) - - - -
    · exact ⟨rfl, trivial, rfl, Bool.noConfusion⟩
    · exact ⟨⟨ks, rfl, he.written⟩, he.fits, rfl, Bool.noConfusion⟩
  · exact spells_mark _ _ fun _ => .pure fun _ _ _ _ _ _ => ⟨rfl, trivial, rfl, Bool.noConfusion⟩
  · refine h.block.bind fun body kb => .pure ?_
    rintro rest ⟨inner, rfl, hw, hf⟩ - - - - - -
    exact ⟨⟨inner, by simp, hw⟩, hf, rfl, Bool.noConfusion⟩
  · refine h.expression.bind fun e ke => spells_mark _ _ fun _ => .pure ?_
    intro rest he _ _ _ _ _ _ _
    exact ⟨⟨ke, rfl, he.written⟩, he.fits, rfl, Bool.noConfusion⟩
  · exact h.expressionStatement.imp fun st ks rest hst _ _ _ _ _ _ _ => hst

theorem expressionStatement_succ : Spells (Parse.expressionStatement (fuel + 1)) (Stmt.Spelled True) := by
  rw [Parse.expressionStatement]
  refine h.expression.bind fun e ke => spells_mark _ _ fun _ => .pure fun rest he => ?_
  exact ⟨⟨ke, rfl, he.written⟩, he.fits, rfl, Bool.noConfusion⟩

theorem ifStatement_succ :
    Spells (Parse.ifStatement (fuel + 1)) fun st ks rest => st.Spelled True (.keyword .if :: ks) rest := by
  rw [Parse.ifStatement]
  refine spells_mark _ _ fun _ => h.expression.bind fun c kc => spells_mark _ _ fun _ => ?_
  refine h.statement.bind fun thenBranch kt => ?_
  refine (spells_ifAccepted _ h.statement).bind fun found ks => .pure ?_
  rintro rest (⟨rfl, rfl, hne⟩ | ⟨elseBranch, ke, rfl, rfl, he⟩) ht hc
  · exact ⟨⟨kc, kt, by simp, hc.written, ht.written⟩, ⟨hc.fits, ht.inner, ht.fits⟩, rfl, fun _ => hne⟩
  · -- the `else` was not taken by a statement in the branch before it
    have hopen : thenBranch.endsOpen = false := Bool.eq_false_iff.mpr fun hopen => ht.closed hopen rfl
    exact ⟨⟨kc, kt, ke, by simp, hc.written, ht.written, he.written⟩,
      ⟨hc.fits, ht.inner, hopen, ht.fits, he.inner, he.fits⟩, rfl, he.closed⟩

end

end Spelling

theorem spelling : ∀ fuel, Spelling fuel
  | 0 => .zero
  | fuel + 1 =>
    have h := spelling fuel
    { expression := h.expression_succ
      operand := h.operand_succ
      operatorChain := h.operatorChain_succ
      unary := h.unary_succ
      suffixes := h.suffixes_succ
      argumentList := h.argumentList_succ
      primary := h.primary_succ
      routineBody := h.routineBody_succ
      block := h.block_succ
      declarations := h.declarations_succ
      declaration := h.declaration_succ
      classDeclaration := h.classDeclaration_succ
      members := h.members_succ
      method := h.method_succ
      varDeclaration := h.varDeclaration_succ
      statement := h.statement_succ
      expressionStatement := h.expressionStatement_succ
      ifStatement := h.ifStatement_succ }

theorem spells_program : ∀ fuel, Spells (program fuel) fun sts ks rest =>
    WrittenStmts sts ks ∧ FitsStmts True sts ∧ rest = []
  | 0 => .exhausted
  | fuel + 1 => by
    rw [program]
    refine spells_peek fun kind => ?_
    cases kind with
    | none => exact .pure fun rest hh => ⟨rfl, trivial, List.head?_eq_none_iff.mp hh.symm⟩
    | some kind =>
      refine (spelling fuel).declaration.bind fun found k => (spells_program fuel).bind fun sts kr => .pure ?_
      rintro rest ⟨hw, hf, hr⟩ ⟨st, rfl, hst⟩ -
      exact ⟨⟨k, kr, by simp, hst.1, hw⟩, ⟨hst.2, hf⟩, hr⟩

end Parse

/-- Writing a program out again that was read without errors, and without shorthands, gives its tokens. The program fits,
and so the documented grammar derives them. -/
theorem accepted_program_is_written {tokens : List Token} {nextId : NodeId}
    (hplain : ∀ k ∈ kindsToEnd tokens, k.isShorthand = false) (herrors : (parseProgram tokens nextId).errors = []) :
    WrittenStmts (parseProgram tokens nextId).tree (kindsToEnd tokens) ∧ FitsStmts True (parseProgram tokens nextId).tree ∧
      Derives (.rule .program) (kindsToEnd tokens) := by
  obtain ⟨r, hr, hre, -⟩ := Parse.program_of_parsed herrors
  obtain ⟨ks, hks, hw, hf, hrest⟩ := ((Parse.spells_program (grammarFuel tokens)).of_done hr).2 hre hplain
  have hks : kindsToEnd tokens = ks := by rw [hrest, List.append_nil] at hks; exact hks
  rw [hks]
  exact ⟨hw, hf, .rule (hf.derives hw)⟩

/-- A class with a getter between its static members, and a property that is assigned. -/
theorem accepted_class_is_written :
    let tokens := tokensOf (Item.ofSource "class A { class f() { return 1; } g: this; class h: 2; } A.x = -1 + 2 * (3);")
    (∀ k ∈ kindsToEnd tokens, k.isShorthand = false) ∧ (parseProgram tokens 0).errors = [] ∧
      WrittenStmts (parseProgram tokens 0).tree (kindsToEnd tokens) ∧ FitsStmts True (parseProgram tokens 0).tree ∧
        Derives (.rule .program) (kindsToEnd tokens) := by
  intro tokens
  have hplain : ∀ k ∈ kindsToEnd tokens, k.isShorthand = false := by decide +kernel
  have herrors : (parseProgram tokens 0).errors = [] := by decide +kernel
  exact ⟨hplain, herrors, accepted_program_is_written hplain herrors⟩

end Lox
