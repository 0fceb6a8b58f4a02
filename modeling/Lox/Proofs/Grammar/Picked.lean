import Lox.Proofs.Grammar.Picks
import Lox.Proofs.Grammar.TakenPrograms

/-!
# What is picked can be written out

Every rule gives, without an error, the tree of a passage that its tokens stand for. So there is a text in which everything
chosen among the tokens is written out.
-/

namespace Lox

open Token (Kind)

/-- The tokens stand for the passage. -/
def Stands (loops : Bool) (φ : Passage) (cs : List Choice) : Prop := ∃ ts, Unfolds loops φ cs ts

/-! ## Ends -/

theorem Token.Kind.strength_lt {kind : Kind} {m : Nat} (h : kind.strength? = some m) : m < Rank.primary ∧ m ≠ Rank.unary := by
  cases kind with
  | mark mark => cases mark <;> cases h <;> decide
  | keyword k => cases k <;> cases h <;> decide
  | _ => cases h

theorem Connective.exists_of_strength {kind : Kind} {level : Nat} (hlevel : level < levels)
    (h : kind.strength? = some (level + 1)) : ∃ op, at? level kind = some op := by
  suffices hs : ∃ op, ofKind? kind = some (level, op) from hs.imp fun op hop => at?_eq_some.mpr hop
  cases kind with
  | mark mark => cases mark <;> cases h <;> first | exact ⟨_, rfl⟩ | exact absurd hlevel (by decide)
  | keyword k => cases k <;> cases h <;> exact ⟨_, rfl⟩
  | _ => cases h

theorem Assignment.exists_of_strength {kind : Kind} (h : kind.strength? = some Rank.assignment) :
    ∃ m form, kind = .mark m ∧ ofMark? m = some form := by
  cases kind with
  | mark mark => cases mark <;> cases h <;> exact ⟨_, _, rfl, rfl⟩
  | keyword k => cases k <;> cases h
  | _ => cases h

theorem Token.Kind.call_of_strength {kind : Kind} (h : kind.strength? = some Rank.call) :
    kind = .mark .leftParen ∨ kind = .mark .dot := by
  cases kind with
  | mark mark => cases mark <;> cases h <;> first | exact .inl rfl | exact .inr rfl
  | keyword k => cases k <;> cases h
  | _ => cases h

namespace Ends

variable {rank : Nat} {cs rest : List Choice} {c : Choice} {e : Expr}

theorem of_top (ks : List Kind) : Ends Rank.primary ks := by
  cases ks with
  | nil => trivial
  | cons kind ks => exact fun m hm => (Kind.strength_lt hm).1

/-- Nothing of the rank comes next, either. -/
theorem lower (h : Ends (rank + 1) (rest.map Choice.kind))
    (hne : ∀ kind, Choice.next? rest = some kind → kind.strength? ≠ some rank) : Ends rank (rest.map Choice.kind) := by
  cases rest with
  | nil => trivial
  | cons c rest => exact fun m hm => Nat.lt_of_le_of_ne (Nat.lt_succ_iff.mp (h m hm)) fun hr => hne _ rfl (hr ▸ hm)

theorem limit_lower (h : Ends (e.limit (rank + 1)) (rest.map Choice.kind))
    (hne : ∀ kind, Choice.next? rest = some kind → kind.strength? ≠ some rank) : Ends (e.limit rank) (rest.map Choice.kind) := by
  unfold Expr.limit at *
  split
  · rename_i hopen
    rwa [if_pos hopen] at h
  · rename_i hclosed
    rw [if_neg hclosed] at h
    exact h.lower hne

/-- What comes next goes on with the expression, which is closed then. -/
theorem closed {m : Nat} (h : Ends (e.limit rank) ((c :: rest).map Choice.kind)) (hc : c.kind.strength? = some m) :
    e.isOpen = false := by
  by_contra hopen
  rw [Expr.limit, if_pos (Bool.not_eq_false _ ▸ hopen)] at h
  exact Nat.not_lt_zero m (h m hc)

end Ends

/-! ## Targets -/

namespace Unfolds

variable {loops : Bool} {level : Nat} {left e : Expr} {cs : List Choice} {ts : List Token}

/-- What can be assigned to joins nothing. -/
theorem chain_of_target (h : Unfolds loops (.chain level left e) cs ts) (ht : e.isTarget = true) :
    e = left ∧ cs = [] ∧ ts = [] := by
  generalize hφ : Passage.chain level left e = φ at h
  induction h generalizing left with
  | chainEnd =>
    cases hφ
    exact ⟨rfl, rfl, rfl⟩
  | @operator c op _ _ _ _ _ _ _ _ _ _ _ _ _ ih =>
    cases hφ
    obtain ⟨rfl, -⟩ := ih rfl
    exact Bool.noConfusion ((Connective.join_isTarget ..).symm.trans ht)
  | _ => cases hφ

theorem call_of_unary (h : Unfolds loops (.unary e) cs ts) (ht : e.isTarget = true) : Unfolds loops (.call e) cs ts := by
  cases h with
  | leading => cases ht
  | step _ _ _ he => exact Bool.noConfusion ((Expr.isOpen_of_assigned he).2.2.symm.trans ht)
  | called h => exact h

theorem call_of_operand (h : Unfolds loops (.operand level e) cs ts) (ht : e.isTarget = true) :
    Unfolds loops (.call e) cs ts := by
  generalize hφ : Passage.operand level e = φ at h
  induction h generalizing level with
  | operators _ _ hs ihl =>
    cases hφ
    obtain ⟨rfl, rfl, rfl⟩ := hs.chain_of_target ht
    rw [List.append_nil, List.append_nil]
    exact ihl rfl
  | strongest h =>
    cases hφ
    exact h.call_of_unary ht
  | _ => cases hφ

/-- A block returns with the word. -/
theorem not_short {sts : List Stmt} (h : Unfolds loops (.block sts) cs ts) : isShortBody sts = false := by
  unfold isShortBody
  split
  · rename_i line found
    obtain ⟨cs, ts, hd⟩ : ∃ cs ts, Unfolds loops (.declarations [.returns .expressionBody line found]) cs ts := by
      cases h with
      | block hd => exact ⟨_, _, hd⟩
    cases hd with
    | declarations hst =>
      generalize hreturns : Stmt.returns .expressionBody line found = st at hst
      cases hst with
      | variableDeclaration _ h => cases h <;> cases hreturns
      | functionDeclaration | classDeclaration => cases hreturns
      | statementDeclaration h =>
        cases h with
        | @forLoop _ _ _ _ _ first => cases first <;> cases hreturns
        | _ => cases hreturns
  · rfl

end Unfolds

theorem Expr.isTarget_of_assigned {target value e : Expr} (h : target.assigned? value = some e) : target.isTarget = true := by
  cases target <;> cases h <;> rfl

/-! ## Parts of the grammar -/

namespace Parse

variable (loops : Bool)

theorem picks_reread (e : Expr) : Picks (reread e) fun old cs _ => cs = [] ∧ old.bare true = e.bare true := fun _ all hall =>
  ⟨⟨List.suffix_rfl, rfl, (e.fresh_spans _).le, List.prefix_rfl⟩, fun _ => ⟨[], all, rfl, hall, rfl, e.fresh_bare _ _⟩⟩

theorem picks_assignTo (target value : Expr) (site : Site) (fault : SyntaxFault) :
    Picks (assignTo target value site fault) fun e cs _ =>
      cs = [] ∧ (target.bare true).assigned? (value.bare true) = some (e.bare true) := by
  unfold assignTo
  split
  · exact picks_silent picks_freshId fun _ => .pure fun _ => ⟨rfl, rfl⟩
  · exact .pure fun _ => ⟨rfl, rfl⟩
  · exact (picks_reportAt site fault fun _ _ _ => False).bind fun _ _ => .pure fun _ h => h.elim

theorem picks_updateBy (op : Mark) (target operand : Expr) (site : Site) (fault : SyntaxFault) :
    Picks (updateBy op target operand site fault) fun e cs _ => cs = [] ∧
      (target.bare true).assigned? (.binary op site.line (target.bare true) (operand.bare true)) = some (e.bare true) := by
  refine (picks_reread target).bind fun old cs => (picks_assignTo target _ site fault).imp ?_
  rintro e cs' rest ⟨rfl, he⟩ ⟨rfl, hold⟩
  rw [Expr.bare, hold] at he
  exact ⟨rfl, he⟩

/-- Nothing that goes on with it could be a part of an atom. -/
theorem picks_atom : Picks atom? fun found cs _ => (found = none ∧ cs = []) ∨
    ∃ e, found = some e ∧ Stands loops (.primary (e.bare true)) cs ∧ (e.bare true).isOpen = false := by
  refine picks_line fun line => picks_peek fun kind => ?_
  split
  case h_7 =>
    refine picks_skip fun c hc => picks_mark _ _ fun d hd => picks_name _ fun f x hf => ?_
    refine picks_silent picks_freshId fun id => .pure fun rest hline => .inr ⟨_, rfl, ?_, rfl⟩
    obtain rfl := hline c _ rfl
    exact ⟨_, .super hc hd hf⟩
  case h_6 =>
    refine picks_skip fun c hc => picks_silent picks_freshId fun id => .pure fun rest hline => .inr ⟨_, rfl, ?_, rfl⟩
    obtain rfl := hline c _ rfl
    exact ⟨_, .this hc⟩
  case h_8 =>
    refine picks_skip fun c hc => picks_silent picks_freshId fun id => .pure fun rest hline => .inr ⟨_, rfl, ?_, rfl⟩
    obtain rfl := hline c _ rfl
    exact ⟨_, .var hc⟩
  case h_9 => exact .pure fun _ _ _ => .inl ⟨rfl, rfl⟩
  all_goals
    exact picks_skipped fun c rest hc _ => .inr ⟨_, rfl, ⟨_, .literal (congrArg Kind.literal? hc)⟩, rfl⟩

theorem picks_parameterList : ∀ fuel count, Picks (parameterList fuel count) fun xs cs _ =>
    xs ≠ [] ∧ Stands loops (.names xs) cs ∧ count + xs.length ≤ maxArity
  | 0, _ => .exhausted
  | fuel + 1, count => by
    rw [parameterList]
    refine (picks_checkCount count _).bind fun _ _ => picks_name _ fun c x hc => picks_choice _ (fun d hd => ?_) (.pure ?_)
    · refine (picks_parameterList fuel (count + 1)).bind fun xs cs => .pure ?_
      rintro rest ⟨hne, ⟨ts, hs⟩, hlen⟩ ⟨rfl, -⟩
      refine ⟨List.cons_ne_nil _ _, ?_, by rw [List.length_cons]; omega⟩
      rw [List.append_nil, List.nil_append]
      cases xs with
      | nil => exact absurd rfl hne
      | cons y xs => exact ⟨_, .name hc hd hs⟩
    · rintro rest - ⟨rfl, hlt⟩
      exact ⟨List.cons_ne_nil _ _, ⟨_, .lastName hc⟩, hlt⟩

theorem picks_parameters (fuel : Nat) : Picks (parameters fuel) fun xs cs _ => Stands loops (.parameters xs) cs := by
  refine (picks_unlessAt _ (picks_parameterList loops fuel 0)).bind fun found cs => picks_mark _ _ fun c hc => .pure ?_
  rintro rest (⟨rfl, rfl⟩ | ⟨xs, rfl, -, ⟨ts, hs⟩, hlen⟩)
  · exact ⟨_, .parameters (Nat.zero_le _) .noNames hc⟩
  · exact ⟨_, .parameters (by simpa using hlen) hs hc⟩

theorem picks_superclass : Picks superclass? fun ref cs _ => Stands loops (.superclass (ref.map Reference.bare)) cs := by
  refine picks_choice _ (fun c hc => ?_) (.pure fun rest _ => ⟨_, .noSuperclass⟩)
  exact picks_name _ fun d x hd => picks_silent picks_freshId fun id => .pure fun rest => ⟨_, .superclass hc hd⟩

theorem picks_optional {fuel : Nat} (m : Mark) (h : Picks (expression fuel) fun e cs rest =>
      Stands loops (.expression (e.bare true)) cs ∧ Ends Rank.assignment (rest.map Choice.kind)) :
    Picks (unlessAt m (expression fuel)) fun found cs _ => Stands loops (.optional (found.map (Expr.bare true))) cs := by
  refine (picks_unlessAt m h).imp ?_
  rintro found cs rest (⟨rfl, rfl⟩ | ⟨e, rfl, ⟨ts, hs⟩, -⟩)
  · exact ⟨_, .absent⟩
  · exact ⟨_, .present hs⟩

/-! ## The rules -/

/-- What a statement stands for, and that no `else` after it could be a part of it. -/
def StatementStands (loops : Bool) (st : Stmt) (cs rest : List Choice) : Prop :=
  ∃ dangling, Stands loops (.statement dangling (st.bare true)) cs ∧
    (dangling = true → Choice.next? rest ≠ some (.keyword .else))

/-- Every rule with this fuel. A rule that comes after a keyword is to be seen with it. -/
structure Picking (loops : Bool) (fuel : Nat) : Prop where
  expression : Picks (expression fuel) fun e cs rest =>
    Stands loops (.expression (e.bare true)) cs ∧ Ends Rank.assignment (rest.map Choice.kind)
  operand (level : Nat) : level ≤ Connective.levels → Picks (operand fuel level) fun e cs rest =>
    Stands loops (.operand level (e.bare true)) cs ∧ Ends ((e.bare true).limit (level + 1)) (rest.map Choice.kind)
  operatorChain (level : Nat) (left : Expr) : level < Connective.levels → Picks (operatorChain fuel level left) fun e cs rest =>
    Ends ((left.bare true).limit (level + 2)) ((cs ++ rest).map Choice.kind) →
      Stands loops (.chain level (left.bare true) (e.bare true)) cs ∧
        Ends ((e.bare true).limit (level + 1)) (rest.map Choice.kind)
  unary : Picks (unary fuel) fun e cs rest =>
    Stands loops (.unary (e.bare true)) cs ∧ Ends ((e.bare true).limit Rank.unary) (rest.map Choice.kind)
  suffixes (head : Expr) : Picks (suffixes fuel head) fun e cs rest =>
    Ends ((head.bare true).limit Rank.primary) ((cs ++ rest).map Choice.kind) →
      Stands loops (.suffixes (head.bare true) (e.bare true)) cs ∧ Ends ((e.bare true).limit Rank.unary) (rest.map Choice.kind)
  argumentList (count : Nat) : Picks (argumentList fuel count) fun es cs _ =>
    es ≠ [] ∧ Stands loops (.arguments (bareExprs true es)) cs ∧ count + es.length ≤ maxArity
  primary : Picks (primary fuel) fun e cs rest =>
    Stands loops (.primary (e.bare true)) cs ∧ Ends ((e.bare true).limit Rank.primary) (rest.map Choice.kind)
  routineBody (closed : Bool) : Picks (routineBody fuel closed) fun sts cs rest =>
    Stands loops (.body closed (bareStmts true sts)) cs ∧
      (closed = false → isShortBody (bareStmts true sts) = true → Ends Rank.assignment (rest.map Choice.kind))
  block : Picks (block fuel) fun sts cs _ => Stands loops (.block (bareStmts true sts)) cs
  declarations : Picks (declarations fuel) fun sts cs _ => Stands loops (.declarations (bareStmts true sts)) cs
  declaration : Picks (declaration fuel) fun found cs _ =>
    ∃ st, found = some st ∧ Stands loops (.declaration (st.bare true)) cs
  classDeclaration : Picks (classDeclaration fuel) fun st cs _ =>
    ∀ c : Choice, c.kind = .keyword .klass → Stands loops (.declaration (st.bare true)) (c :: cs)
  members : Picks (members fuel) fun ms cs _ => Stands loops (.members (bareMethods true ms.1) (bareMethods true ms.2)) cs
  method : Picks (method fuel) fun m cs _ => Stands loops (.method (m.bare true)) cs
  varDeclaration : Picks (varDeclaration fuel) fun st cs _ => Stands loops (.variable (st.bare true)) cs
  statement : Picks (statement fuel) (StatementStands loops)
  expressionStatement : Picks (expressionStatement fuel) fun st cs _ =>
    ∃ e ce c, st = .expr e ∧ cs = ce ++ [c] ∧ c.kind = .mark .semicolon ∧ Stands loops (.expression (e.bare true)) ce
  ifStatement : Picks (ifStatement fuel) fun st cs rest =>
    ∀ c : Choice, c.kind = .keyword .if → StatementStands loops st (c :: cs) rest
  forStatement : Picks (forStatement fuel) fun st cs rest =>
    ∀ c : Choice, c.kind = .keyword .for → StatementStands loops st (c :: cs) rest
  forInitializer : Picks (forInitializer fuel) fun found cs _ =>
    Stands loops (.initializer (found.map (Stmt.bare true))) cs

namespace Picking

theorem zero : Picking loops 0 where
  expression := .exhausted
  operand _ _ := .exhausted
  operatorChain _ _ _ := .exhausted
  unary := .exhausted
  suffixes _ := .exhausted
  argumentList _ := .exhausted
  primary := .exhausted
  routineBody _ := .exhausted
  block := .exhausted
  declarations := .exhausted
  declaration := .exhausted
  classDeclaration := .exhausted
  members := .exhausted
  method := .exhausted
  varDeclaration := .exhausted
  statement := .exhausted
  expressionStatement := .exhausted
  ifStatement := .exhausted
  forStatement := .exhausted
  forInitializer := .exhausted

section
variable {loops} {fuel : Nat} (h : Picking loops fuel)
include h

/-! ### Expressions -/

theorem expression_succ : Picks (Parse.expression (fuel + 1)) fun e cs rest =>
    Stands loops (.expression (e.bare true)) cs ∧ Ends Rank.assignment (rest.map Choice.kind) := by
  rw [Parse.expression]
  refine (h.operand 0 (Nat.zero_le _)).bind fun target ct => picks_acceptAssignment.bind fun found cs => ?_
  rcases found with _ | ⟨form, site⟩
  case none =>
    refine .pure ?_
    rintro rest (⟨-, rfl, hnone⟩ | ⟨_, _, _, _, ⟨⟩, -⟩) ⟨⟨ts, ht⟩, hends⟩
    rw [List.append_nil, List.append_nil]
    refine ⟨⟨ts, .plain ht⟩, (hends.mono ((target.bare true).limit_le _)).lower fun kind hkind hs => ?_⟩
    obtain ⟨m, form, rfl, hform⟩ := Assignment.exists_of_strength hs
    exact hnone m form hkind hform
  case some =>
    -- the target is written as a call, whatever the level at which it has been read
    have hassign : ∀ (value e : Expr) (cv rest : List Choice),
        (target.bare true).assigned? (form.value site.line (target.bare true) (value.bare true)) = some (e.bare true) →
        Stands loops (.expression (value.bare true)) cv ∧ Ends Rank.assignment (rest.map Choice.kind) →
        (∃ form' site' c m, some (form, site) = some (form', site') ∧ cs = [c] ∧ c.kind = .mark m ∧
          Assignment.ofMark? m = some form' ∧ site'.line = c.line) →
        Stands loops (.operand 0 (target.bare true)) ct →
        Stands loops (.expression (e.bare true)) (ct ++ (cs ++ cv)) ∧ Ends Rank.assignment (rest.map Choice.kind) := by
      rintro value e cv rest he ⟨⟨tv, hv⟩, hends⟩ ⟨_, _, c, m, hs, rfl, hc, hm, hline⟩ ⟨tt, ht⟩
      cases hs
      rw [hline] at he
      exact ⟨⟨_, .assign hc hm (ht.call_of_operand (Expr.isTarget_of_assigned he)) hv he⟩, hends⟩
    cases form with
    | store =>
      refine h.expression.bind fun value cv => (picks_assignTo target value _ _).imp ?_
      rintro e cs' rest ⟨rfl, he⟩ hv (⟨⟨⟩, -⟩ | hfound) ⟨ht, -⟩
      rw [List.append_nil]
      exact hassign value e cv rest he hv hfound ht
    | combine op =>
      refine h.expression.bind fun value cv => (picks_updateBy op target value _ _).imp ?_
      rintro e cs' rest ⟨rfl, he⟩ hv (⟨⟨⟩, -⟩ | hfound) ⟨ht, -⟩
      rw [List.append_nil]
      exact hassign value e cv rest he hv hfound ht

theorem operand_succ (level : Nat) (hle : level ≤ Connective.levels) : Picks (Parse.operand (fuel + 1) level) fun e cs rest =>
    Stands loops (.operand level (e.bare true)) cs ∧ Ends ((e.bare true).limit (level + 1)) (rest.map Choice.kind) := by
  rw [Parse.operand]
  refine .ite (fun hlt => ?_) fun hge => ?_
  · refine (h.operand (level + 1) hlt).bind fun left cl => (h.operatorChain level left hlt).imp ?_
    rintro e cs rest hchain ⟨⟨tl, hl⟩, hends⟩
    obtain ⟨⟨ts, hs⟩, hends⟩ := hchain hends
    exact ⟨⟨_, .operators hlt hl hs⟩, hends⟩
  · obtain rfl : level = Connective.levels := Nat.le_antisymm hle (Nat.le_of_not_lt hge)
    refine h.unary.imp ?_
    rintro e cs rest ⟨⟨ts, hs⟩, hends⟩
    exact ⟨⟨ts, .strongest hs⟩, hends⟩

theorem operatorChain_succ (level : Nat) (left : Expr) (hlt : level < Connective.levels) :
    Picks (Parse.operatorChain (fuel + 1) level left) fun e cs rest =>
      Ends ((left.bare true).limit (level + 2)) ((cs ++ rest).map Choice.kind) →
        Stands loops (.chain level (left.bare true) (e.bare true)) cs ∧
          Ends ((e.bare true).limit (level + 1)) (rest.map Choice.kind) := by
  rw [Parse.operatorChain]
  refine (picks_acceptConnective level).bind fun found cs => ?_
  rcases found with _ | ⟨op, line⟩
  case none =>
    refine .pure ?_
    rintro rest (⟨-, rfl, hnone⟩ | ⟨_, _, ⟨⟩, -⟩) hends
    refine ⟨⟨_, .chainEnd⟩, hends.limit_lower fun kind hkind hs => ?_⟩
    obtain ⟨op, hop⟩ := Connective.exists_of_strength hlt hs
    exact hnone kind op hkind hop
  case some =>
    refine (h.operand (level + 1) hlt).bind fun right cr => (h.operatorChain level _ hlt).imp ?_
    rintro e cs' rest hchain ⟨⟨tr, hr⟩, hends⟩ (⟨⟨⟩, -⟩ | ⟨_, c, hs, rfl, hc⟩) hleft
    cases hs
    rw [op.join_bare, Expr.limit_congr (op.join_isOpen _ _ _)] at hchain
    obtain ⟨⟨ts, hs⟩, hends⟩ := hchain hends
    have hclosed := Ends.closed hleft (Connective.strength hc)
    rw [List.singleton_append]
    exact ⟨⟨_, .operator hc hclosed hr hs⟩, hends⟩

theorem unary_succ : Picks (Parse.unary (fuel + 1)) fun e cs rest =>
    Stands loops (.unary (e.bare true)) cs ∧ Ends ((e.bare true).limit Rank.unary) (rest.map Choice.kind) := by
  rw [Parse.unary]
  refine picks_acceptLeading.bind fun found cs => ?_
  rcases found with _ | ⟨op | op, site⟩
  case some.operator =>
    refine h.unary.bind fun e ce => .pure ?_
    rintro rest ⟨⟨ts, hs⟩, hends⟩ (⟨⟨⟩, -⟩ | ⟨_, _, c, m, hfound, rfl, hc, hm, hline⟩)
    cases hfound
    rw [List.append_nil, hline]
    exact ⟨⟨_, .leading hc hm hs⟩, hends⟩
  case some.increment =>
    refine h.unary.bind fun target ct => (picks_updateBy op target (.literal (.number 1)) _ _).imp ?_
    rintro e cs' rest ⟨rfl, he⟩ ⟨⟨ts, hs⟩, hends⟩ (⟨⟨⟩, -⟩ | ⟨_, _, c, m, hfound, rfl, hc, hm, hline⟩)
    cases hfound
    obtain ⟨htclosed, heclosed, -⟩ := Expr.isOpen_of_assigned he
    rw [Expr.limit_of_closed htclosed] at hends
    rw [List.append_nil, Expr.limit_of_closed heclosed]
    rw [hline] at he
    exact ⟨⟨_, .step hc hm (hs.call_of_unary (Expr.isTarget_of_assigned he)) he⟩, hends⟩
  case none =>
    refine h.primary.bind fun head ch => (h.suffixes head).imp ?_
    rintro e cs' rest hsuffixes ⟨⟨th, hh⟩, hends⟩ (⟨-, rfl⟩ | ⟨_, _, _, _, ⟨⟩, -⟩)
    obtain ⟨⟨ts, hs⟩, hends⟩ := hsuffixes hends
    rw [List.nil_append]
    exact ⟨⟨_, .called (.suffixed hh hs)⟩, hends⟩

theorem suffixes_succ (head : Expr) : Picks (Parse.suffixes (fuel + 1) head) fun e cs rest =>
    Ends ((head.bare true).limit Rank.primary) ((cs ++ rest).map Choice.kind) →
      Stands loops (.suffixes (head.bare true) (e.bare true)) cs ∧
        Ends ((e.bare true).limit Rank.unary) (rest.map Choice.kind) := by
  rw [Parse.suffixes]
  refine picks_choice _ (fun c hc => ?_) (picks_choice _ (fun c hc => ?_) (.pure ?_))
  · refine (picks_unlessAt _ (h.argumentList 0)).bind fun found ca => picks_mark _ _ fun d hd => (h.suffixes _).imp ?_
    intro e cs rest hsuffixes hargs hends
    have hclosed := hends.closed (congrArg Kind.strength? hc)
    obtain ⟨⟨ts, hs⟩, hends⟩ := hsuffixes (.of_top _)
    have hargs : ∃ ta, Unfolds loops (.arguments (bareExprs true (found.getD []))) ca ta ∧
        (bareExprs true (found.getD [])).length ≤ maxArity := by
      rcases hargs with ⟨rfl, rfl⟩ | ⟨es, rfl, -, ⟨ta, ha⟩, hlen⟩
      · exact ⟨_, .noArguments, Nat.zero_le _⟩
      · exact ⟨ta, ha, by simpa [bareExprs_length] using hlen⟩
    obtain ⟨ta, ha, hlen⟩ := hargs
    exact ⟨⟨_, .invoked hc hclosed hlen ha hd hs⟩, hends⟩
  · refine picks_name _ fun d x hd => (h.suffixes _).imp fun e cs rest hsuffixes _ hends => ?_
    have hclosed := hends.closed (congrArg Kind.strength? hc)
    obtain ⟨⟨ts, hs⟩, hends⟩ := hsuffixes (.of_top _)
    exact ⟨⟨_, .got hc hclosed hd hs⟩, hends⟩
  · intro rest hdot hparen hends
    have hcall : Ends ((head.bare true).limit (Rank.unary + 1)) (rest.map Choice.kind) := by
      refine hends.limit_lower fun kind hkind hs => ?_
      rcases Kind.call_of_strength hs with rfl | rfl
      · exact hparen hkind
      · exact hdot hkind
    exact ⟨⟨_, .suffixEnd⟩, hcall.limit_lower fun kind _ hs => (Kind.strength_lt hs).2 rfl⟩

theorem argumentList_succ (count : Nat) : Picks (Parse.argumentList (fuel + 1) count) fun es cs _ =>
    es ≠ [] ∧ Stands loops (.arguments (bareExprs true es)) cs ∧ count + es.length ≤ maxArity := by
  rw [Parse.argumentList]
  refine (picks_checkCount count _).bind fun _ _ => h.expression.bind fun e ce => picks_choice _ (fun c hc => ?_) (.pure ?_)
  · refine (h.argumentList (count + 1)).bind fun es cs => .pure ?_
    rintro rest ⟨hne, ⟨ts, hs⟩, hlen⟩ ⟨⟨te, he⟩, -⟩ ⟨rfl, -⟩
    refine ⟨List.cons_ne_nil _ _, ?_, by rw [List.length_cons]; omega⟩
    rw [List.append_nil, List.nil_append]
    cases es with
    | nil => exact absurd rfl hne
    | cons e' es => exact ⟨_, .argument he hc hs⟩
  · rintro rest - ⟨⟨te, he⟩, -⟩ ⟨rfl, hlt⟩
    rw [List.append_nil, List.nil_append]
    exact ⟨List.cons_ne_nil _ _, ⟨_, .lastArgument he⟩, hlt⟩

theorem primary_succ : Picks (Parse.primary (fuel + 1)) fun e cs rest =>
    Stands loops (.primary (e.bare true)) cs ∧ Ends ((e.bare true).limit Rank.primary) (rest.map Choice.kind) := by
  rw [Parse.primary]
  refine (picks_atom loops).bind fun found cs => ?_
  cases found with
  | some e =>
    refine .pure ?_
    rintro rest (⟨⟨⟩, -⟩ | ⟨_, he, hs, hclosed⟩)
    cases he
    rw [List.append_nil, Expr.limit_of_closed hclosed]
    exact ⟨hs, .of_top _⟩
  | none =>
    refine picks_line fun line => picks_choice _ (fun c hc => ?_) (picks_choice _ (fun c hc => ?_) (.fail _))
    · refine h.expression.bind fun inner ce => picks_mark _ _ fun d hd => .pure ?_
      rintro rest ⟨⟨ts, hs⟩, -⟩ - (⟨-, rfl⟩ | ⟨_, ⟨⟩, -⟩)
      exact ⟨⟨_, .group hc hs hd⟩, .of_top _⟩
    · refine picks_mark _ _ fun d hd => (picks_parameters loops fuel).bind fun params cp => ?_
      refine (h.routineBody false).bind fun body cb => .pure ?_
      rintro rest ⟨⟨tb, hb⟩, hends⟩ ⟨tp, hp⟩ - hline (⟨-, rfl⟩ | ⟨_, ⟨⟩, -⟩)
      obtain rfl := hline c _ rfl
      rw [List.append_nil, List.nil_append]
      refine ⟨⟨_, .lambda hc hd hp hb⟩, ?_⟩
      unfold Expr.limit
      split
      · rename_i hopen
        exact hends rfl hopen
      · exact .of_top _

/-! ### Functions and classes -/

theorem routineBody_succ (closed : Bool) : Picks (Parse.routineBody (fuel + 1) closed) fun sts cs rest =>
    Stands loops (.body closed (bareStmts true sts)) cs ∧
      (closed = false → isShortBody (bareStmts true sts) = true → Ends Rank.assignment (rest.map Choice.kind)) := by
  rw [Parse.routineBody]
  refine picks_line fun line => picks_choice _ (fun c hc => ?_) (picks_choice _ (fun c hc => ?_) (.fail _))
  · refine h.block.imp ?_
    rintro sts cs rest ⟨ts, hs⟩ -
    exact ⟨⟨_, .blockBody hc hs⟩, fun _ hshort => Bool.noConfusion (hs.not_short.symm.trans hshort)⟩
  · refine h.expression.bind fun value ce => (picks_endBody closed).bind fun _ cs => .pure ?_
    rintro rest hending ⟨⟨ts, hs⟩, hends⟩ - hline
    obtain rfl := hline c _ rfl
    rw [List.append_nil]
    refine ⟨⟨_, .shortBody hc hs hending⟩, fun hclosed _ => ?_⟩
    subst hclosed
    obtain rfl := List.map_eq_nil_iff.mp hending
    exact hends

theorem block_succ : Picks (Parse.block (fuel + 1)) fun sts cs _ => Stands loops (.block (bareStmts true sts)) cs := by
  rw [Parse.block]
  refine h.declarations.bind fun body cs => picks_mark _ _ fun c hc => .pure ?_
  rintro rest ⟨ts, hs⟩
  exact ⟨_, .block hs hc⟩

theorem declarations_succ :
    Picks (Parse.declarations (fuel + 1)) fun sts cs _ => Stands loops (.declarations (bareStmts true sts)) cs := by
  rw [Parse.declarations]
  refine picks_silent (picks_before _) fun _ => .ite (fun _ => ?_) fun _ => .pure fun _ => ⟨_, .noDeclarations⟩
  refine h.declaration.bind fun found c => h.declarations.bind fun sts cs => .pure ?_
  rintro rest ⟨ts, hs⟩ ⟨st, rfl, t, hst⟩
  rw [List.append_nil]
  exact ⟨_, .declarations hst hs⟩

theorem declaration_succ : Picks (Parse.declaration (fuel + 1)) fun found cs _ =>
    ∃ st, found = some st ∧ Stands loops (.declaration (st.bare true)) cs := by
  rw [Parse.declaration]
  refine picks_recover (Q := fun (st : Stmt) cs _ => Stands loops (.declaration (st.bare true)) cs)
    (picks_choice _ (fun c hc => ?_) (picks_functionDeclaration ?_ (picks_choice _ (fun c hc => ?_) ?_)))
  · exact h.classDeclaration.imp fun st cs rest hst => hst c hc
  · intro c hc
    refine picks_name _ fun d x hd => picks_mark _ _ fun f hf => (picks_parameters loops fuel).bind fun params cp => ?_
    refine (h.routineBody true).bind fun body cb => .pure ?_
    rintro rest ⟨⟨tb, hb⟩, -⟩ ⟨tp, hp⟩ -
    rw [List.append_nil]
    exact ⟨_, .functionDeclaration hc hd hf hp hb⟩
  · refine h.varDeclaration.imp ?_
    rintro st cs rest ⟨ts, hs⟩ -
    exact ⟨_, .variableDeclaration hc hs⟩
  · refine h.statement.imp ?_
    rintro st cs rest ⟨_, ⟨ts, hs⟩, -⟩ - -
    exact ⟨_, .statementDeclaration hs⟩

theorem classDeclaration_succ : Picks (Parse.classDeclaration (fuel + 1)) fun st cs _ =>
    ∀ c : Choice, c.kind = .keyword .klass → Stands loops (.declaration (st.bare true)) (c :: cs) := by
  rw [Parse.classDeclaration]
  refine picks_name _ fun d x hd => (picks_superclass loops).bind fun ref cr => picks_mark _ _ fun f hf => ?_
  refine h.members.bind fun found cm => picks_mark _ _ fun g hg => .pure ?_
  obtain ⟨methods, statics⟩ := found
  rintro rest ⟨tm, hm⟩ ⟨tr, hr⟩ c hc
  exact ⟨_, .classDeclaration hc hd hr hf hm hg⟩

theorem members_succ : Picks (Parse.members (fuel + 1)) fun ms cs _ =>
    Stands loops (.members (bareMethods true ms.1) (bareMethods true ms.2)) cs := by
  rw [Parse.members]
  refine picks_silent (picks_before _) fun _ => .ite (fun _ => ?_) fun _ => .pure fun _ => ⟨_, .noMembers⟩
  refine picks_accepted _ (fun k hk => ?_) ?_
  · refine h.method.bind fun m c => h.members.bind fun found cs => .pure ?_
    obtain ⟨methods, statics⟩ := found
    rintro rest ⟨ts, hs⟩ ⟨t, hm⟩
    rw [List.append_nil]
    exact ⟨_, .staticMember hk hm hs⟩
  · refine h.method.bind fun m c => h.members.bind fun found cs => .pure ?_
    obtain ⟨methods, statics⟩ := found
    rintro rest ⟨ts, hs⟩ ⟨t, hm⟩ -
    rw [List.append_nil]
    exact ⟨_, .instanceMember hm hs⟩

theorem method_succ : Picks (Parse.method (fuel + 1)) fun m cs _ => Stands loops (.method (m.bare true)) cs := by
  rw [Parse.method]
  refine picks_name _ fun c x hc => (picks_ifAccepted _ (picks_parameters loops fuel)).bind fun found cp => ?_
  refine (h.routineBody true).bind fun body cb => .pure ?_
  rintro rest ⟨⟨tb, hb⟩, -⟩ (⟨rfl, rfl, -⟩ | ⟨params, d, cs, rfl, rfl, hd, tp, hp⟩)
  · rw [List.append_nil, List.nil_append]
    exact ⟨_, .getter hc hb⟩
  · rw [List.append_nil]
    exact ⟨_, .method hc hd hp hb⟩

/-! ### Statements -/

theorem varDeclaration_succ :
    Picks (Parse.varDeclaration (fuel + 1)) fun st cs _ => Stands loops (.variable (st.bare true)) cs := by
  rw [Parse.varDeclaration]
  refine picks_name _ fun c x hc => (picks_ifAccepted _ h.expression).bind fun found cs => picks_mark _ _ fun f hf => .pure ?_
  rintro rest (⟨rfl, rfl, -⟩ | ⟨e, d, cs, rfl, rfl, hd, ⟨ts, hs⟩, -⟩)
  · exact ⟨_, .declared hc hf⟩
  · exact ⟨_, .initialized hc hd hs hf⟩

theorem statement_succ : Picks (Parse.statement (fuel + 1)) (StatementStands loops) := by
  rw [Parse.statement]
  refine picks_line fun line => picks_choice _ (fun c hc => ?_) (picks_choice _ (fun c hc => ?_) (picks_choice _ (fun c hc => ?_) ?_))
  · exact h.forStatement.imp fun st cs rest hst _ => hst c hc
  · exact h.ifStatement.imp fun st cs rest hst _ _ => hst c hc
  · refine picks_mark _ _ fun d hd => h.expression.bind fun condition cc => picks_mark _ _ fun f hf => ?_
    refine h.statement.bind fun body cb => .pure ?_
    rintro rest ⟨dangling, ⟨tb, hb⟩, helse⟩ ⟨⟨tc, hcond⟩, -⟩ - - -
    rw [List.append_nil]
    exact ⟨dangling, ⟨_, .loop hc hd hcond hf hb⟩, helse⟩
  refine picks_choice _ (fun c hc => ?_) (picks_choice _ (fun c hc => ?_) (picks_choice _ (fun c hc => ?_)
    (picks_choice _ (fun c hc => ?_) ?_)))
  · refine (picks_optional loops .semicolon h.expression).bind fun found cs => picks_mark _ _ fun d hd => .pure ?_
    rintro rest ⟨ts, hs⟩ - - - hline
    obtain rfl := hline c _ rfl
    refine ⟨false, ?_, by simp⟩
    rw [Stmt.returns_bare]
    exact ⟨_, .returns hc hs hd⟩
  · refine picks_mark _ _ fun d hd => .pure fun rest _ _ _ _ hline => ?_
    obtain rfl := hline c _ rfl
    exact ⟨false, ⟨_, .breaks hc hd⟩, by simp⟩
  · refine h.block.bind fun body cb => .pure ?_
    rintro rest ⟨ts, hs⟩ - - - - - -
    rw [List.append_nil]
    exact ⟨false, ⟨_, .blockStatement hc hs⟩, by simp⟩
  · refine h.expression.bind fun e ce => picks_mark _ _ fun d hd => .pure ?_
    rintro rest ⟨⟨ts, hs⟩, -⟩ - - - - - - -
    exact ⟨false, ⟨_, .print hc hs hd⟩, by simp⟩
  · refine h.expressionStatement.imp ?_
    rintro _ _ rest ⟨e, ce, c, rfl, rfl, hc, ts, hs⟩ - - - - - - - -
    exact ⟨false, ⟨_, .expr hs hc⟩, by simp⟩

theorem expressionStatement_succ : Picks (Parse.expressionStatement (fuel + 1)) fun st cs _ =>
    ∃ e ce c, st = .expr e ∧ cs = ce ++ [c] ∧ c.kind = .mark .semicolon ∧ Stands loops (.expression (e.bare true)) ce := by
  rw [Parse.expressionStatement]
  refine h.expression.bind fun e ce => picks_mark _ _ fun c hc => .pure ?_
  rintro rest ⟨hs, -⟩
  exact ⟨e, ce, c, rfl, rfl, hc, hs⟩

theorem ifStatement_succ : Picks (Parse.ifStatement (fuel + 1)) fun st cs rest =>
    ∀ c : Choice, c.kind = .keyword .if → StatementStands loops st (c :: cs) rest := by
  rw [Parse.ifStatement]
  refine picks_mark _ _ fun d hd => h.expression.bind fun condition cc => picks_mark _ _ fun f hf => ?_
  refine h.statement.bind fun thenBranch ct => (picks_ifAccepted _ h.statement).bind fun found cs => .pure ?_
  rintro rest (⟨rfl, rfl, hne⟩ | ⟨elseBranch, g, ce, rfl, rfl, hg, dangling, ⟨te, he⟩, helse⟩)
    ⟨inner, ⟨tt, ht⟩, hinner⟩ ⟨⟨tc, hcond⟩, -⟩ c hc
  · rw [List.append_nil, List.append_nil]
    exact ⟨true, ⟨_, .branch hc hd hcond hf ht⟩, fun _ => hne⟩
  · -- the `else` was not taken by a statement in the branch before it
    obtain rfl : inner = false := Bool.eq_false_iff.mpr fun hi => hinner hi (congrArg some hg)
    rw [List.append_nil]
    exact ⟨dangling, ⟨_, .branches hc hd hcond hf ht hg he⟩, helse⟩

theorem forStatement_succ : Picks (Parse.forStatement (fuel + 1)) fun st cs rest =>
    ∀ c : Choice, c.kind = .keyword .for → StatementStands loops st (c :: cs) rest := by
  rw [Parse.forStatement]
  refine picks_mark _ _ fun d hd => h.forInitializer.bind fun first ci => ?_
  refine (picks_optional loops .semicolon h.expression).bind fun condition cc => picks_mark _ _ fun f hf => ?_
  refine (picks_optional loops .rightParen h.expression).bind fun increment cn => picks_mark _ _ fun g hg => ?_
  refine h.statement.bind fun body cb => .pure ?_
  rintro rest ⟨dangling, ⟨tb, hb⟩, helse⟩ ⟨tn, hn⟩ ⟨tc, hcond⟩ ⟨ti, hi⟩ c hc
  refine ⟨dangling, ?_, helse⟩
  rw [List.append_nil, forLoop_bare]
  exact ⟨_, .forLoop hc hd hi hcond hf hn hg hb⟩

theorem forInitializer_succ : Picks (Parse.forInitializer (fuel + 1)) fun found cs _ =>
    Stands loops (.initializer (found.map (Stmt.bare true))) cs := by
  rw [Parse.forInitializer]
  refine picks_choice _ (fun c hc => .pure fun rest => ⟨_, .noInitializer hc⟩) (picks_choice _ (fun c hc => ?_) ?_)
  · refine h.varDeclaration.bind fun st cs => .pure ?_
    rintro rest ⟨ts, hs⟩ -
    rw [List.append_nil]
    exact ⟨_, .variableInitializer hc hs⟩
  · refine h.expressionStatement.bind fun st cs => .pure ?_
    rintro rest ⟨e, ce, c, rfl, rfl, hc, ts, hs⟩ - -
    rw [List.append_nil]
    exact ⟨_, .exprInitializer hs hc⟩

end

end Picking

theorem picking : ∀ fuel, Picking loops fuel
  | 0 => .zero loops
  | fuel + 1 =>
    have h := picking fuel
    { expression := h.expression_succ
      operand := h.operand_succ
      operatorChain := h.operatorChain_succ
      unary := h.unary_succ
      suffixes := h.suffixes_succ
      argumentList := h.argumentList_succ
      primary := h.primary_succ
      routineBody := h.routineBody_succ
      block := h.block_succ
      declarations := h.declarations_succ
      declaration := h.declaration_succ
      classDeclaration := h.classDeclaration_succ
      members := h.members_succ
      method := h.method_succ
      varDeclaration := h.varDeclaration_succ
      statement := h.statement_succ
      expressionStatement := h.expressionStatement_succ
      ifStatement := h.ifStatement_succ
      forStatement := h.forStatement_succ
      forInitializer := h.forInitializer_succ }

theorem picks_program : ∀ fuel, Picks (program fuel) fun sts cs rest =>
    Stands loops (.declarations (bareStmts true sts)) cs ∧ rest = []
  | 0 => .exhausted
  | fuel + 1 => by
    rw [program]
    refine picks_peek fun kind => ?_
    cases kind with
    | none =>
      refine .pure fun rest hnext => ⟨⟨_, .noDeclarations⟩, ?_⟩
      exact List.head?_eq_none_iff.mp (Option.map_eq_none_iff.mp hnext.symm)
    | some kind =>
      refine (picking loops fuel).declaration.bind fun found c => (picks_program fuel).bind fun sts cs => .pure ?_
      rintro rest ⟨⟨ts, hs⟩, hrest⟩ ⟨st, rfl, t, hst⟩ -
      rw [List.append_nil]
      exact ⟨⟨_, .declarations hst hs⟩, hrest⟩

end Parse

end Lox
