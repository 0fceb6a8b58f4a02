import Lox.Proofs.Grammar.Beginning

/-!
# Reading long forms

Every passage is taken by the rule that reads it, in whatever text it is written out, and gives the tree that it stands for.
Long forms are put together from the passages that they consist of, so that nothing has to be said of their tokens.
-/

namespace Lox

open Token (Kind)

/-- The strength of a token that may come next, at most: after an open expression, any would be a part of it. -/
def Expr.limit (e : Expr) (rank : Nat) : Nat := if e.isOpen then 0 else rank

section
variable (groups : Bool)

/-- Rules that take the passage give what resembles it. -/
def Passage.Taken : Passage → List Token → Prop
  | .expression e, ts => ∀ fuel rest, Ends Rank.assignment (rest.map Token.kind) →
    Takes (Parse.expression fuel) (e.Resembles groups) ts rest
  | .operand level e, ts => ∀ fuel rest, Ends (e.limit (level + 1)) (rest.map Token.kind) →
    Takes (Parse.operand fuel level) (e.Resembles groups) ts rest
  | .chain level left e, ts => (∀ rest, Ends (e.limit (level + 1)) (rest.map Token.kind) →
      Ends (left.limit (level + 2)) ((ts ++ rest).map Token.kind)) ∧
    ∀ fuel rest left', left.Resembles groups left' → Ends (e.limit (level + 1)) (rest.map Token.kind) →
      Takes (Parse.operatorChain fuel level left') (e.Resembles groups) ts rest
  | .unary e, ts => ∀ fuel rest, Ends (e.limit Rank.unary) (rest.map Token.kind) →
    Takes (Parse.unary fuel) (e.Resembles groups) ts rest
  | .call e, ts => ∀ fuel rest, Ends (e.limit Rank.call) (rest.map Token.kind) →
    Takes (Parse.unary fuel) (e.Resembles groups) ts rest
  | .suffixes head e, ts => (∀ rest, Ends (e.limit Rank.call) (rest.map Token.kind) →
      Ends (head.limit Rank.primary) ((ts ++ rest).map Token.kind)) ∧
    ∀ fuel rest head', head.Resembles groups head' → Ends (e.limit Rank.call) (rest.map Token.kind) →
      Takes (Parse.suffixes fuel head') (e.Resembles groups) ts rest
  | .arguments es, ts => (es = [] → ts = []) ∧ ∀ fuel rest count, es ≠ [] → count + es.length ≤ maxArity →
    next? rest = some (.mark .rightParen) →
      Takes (Parse.argumentList fuel count) (fun es' => bareExprs groups es' = bareExprs groups es) ts rest
  | .primary e, ts => ∀ fuel rest, Ends (e.limit Rank.primary) (rest.map Token.kind) →
    Takes (Parse.primary fuel) (e.Resembles groups) ts rest
  | .names xs, ts => (xs = [] → ts = []) ∧ ∀ fuel rest count, xs ≠ [] → count + xs.length ≤ maxArity →
    next? rest ≠ some (.mark .comma) → Takes (Parse.parameterList fuel count) (· = xs) ts rest
  | .parameters xs, ts => ∀ fuel rest, Takes (Parse.parameters fuel) (· = xs) ts rest
  | .body closed sts, ts => ∀ fuel rest, (closed = false → isShortBody sts = true → Ends Rank.assignment (rest.map Token.kind)) →
    Takes (Parse.routineBody fuel closed) (fun sts' => bareStmts groups sts' = bareStmts groups sts) ts rest
  | .block sts, ts => ∀ fuel rest, Takes (Parse.block fuel) (fun sts' => bareStmts groups sts' = bareStmts groups sts) ts rest
  | .declarations sts, ts => (∀ rest, next? rest ≠ some (.keyword .else) → next? (ts ++ rest) ≠ some (.keyword .else)) ∧
    (∀ fuel rest, next? rest = some (.mark .rightBrace) →
      Takes (Parse.declarations fuel) (fun sts' => bareStmts groups sts' = bareStmts groups sts) ts rest) ∧
    ∀ fuel, Takes (Parse.program fuel) (fun sts' => bareStmts groups sts' = bareStmts groups sts) ts []
  | .declaration st, ts => ∀ fuel rest, next? rest ≠ some (.keyword .else) →
    Takes (Parse.declaration fuel) (fun found => ∃ st', found = some st' ∧ st'.bare groups = st.bare groups) ts rest
  | .superclass ref, ts => ∀ rest, next? rest ≠ some (.mark .colon) →
    Takes Parse.superclass? (fun ref' => ref'.map Reference.bare = ref.map Reference.bare) ts rest
  | .members methods statics, ts => ∀ fuel rest, next? rest = some (.mark .rightBrace) →
    Takes (Parse.members fuel) (fun found => bareMethods groups found.1 = bareMethods groups methods ∧
      bareMethods groups found.2 = bareMethods groups statics) ts rest
  | .method m, ts => ∀ fuel rest, Takes (Parse.method fuel) (fun m' => m'.bare groups = m.bare groups) ts rest
  | .variable st, ts => ∀ fuel rest, Takes (Parse.varDeclaration fuel) (fun st' => st'.bare groups = st.bare groups) ts rest
  | .statement dangling st, ts => ∀ fuel rest, (dangling = true → next? rest ≠ some (.keyword .else)) →
    Takes (Parse.statement fuel) (fun st' => st'.bare groups = st.bare groups) ts rest
  | .optional none, ts => ts = []
  | .optional (some e), ts => ∀ fuel rest, Ends Rank.assignment (rest.map Token.kind) →
    Takes (Parse.expression fuel) (e.Resembles groups) ts rest
  | .initializer found, ts =>
    (∀ fuel rest, Takes (Parse.forInitializer fuel) (fun found' => found'.map (Stmt.bare groups) = found.map (Stmt.bare groups))
      ts rest) ∧
    ∀ st, found = some st → ∀ fuel rest, next? rest ≠ some (.keyword .else) →
      Takes (Parse.declaration fuel) (fun found => ∃ st', found = some st' ∧ st'.bare groups = st.bare groups) ts rest

end

section
variable {groups : Bool} {e e' : Expr} {m n : Nat} {ks : List Kind}

theorem Expr.limit_le (e : Expr) (rank : Nat) : e.limit rank ≤ rank := by
  unfold limit
  split
  · exact Nat.zero_le _
  · exact Nat.le_refl _

theorem Expr.limit_mono (e : Expr) (h : m ≤ n) : e.limit m ≤ e.limit n := by
  unfold limit
  split
  · exact Nat.le_refl _
  · exact h

theorem Expr.limit_of_closed (h : e.isOpen = false) (rank : Nat) : e.limit rank = rank := by
  rw [limit, h]
  rfl

theorem Expr.limit_congr (h : e.isOpen = e'.isOpen) (rank : Nat) : e.limit rank = e'.limit rank := by
  rw [limit, limit, h]

theorem Connective.join_isOpen (op : Connective) (line : Nat) (left right : Expr) :
    (op.join line left right).isOpen = right.isOpen := by
  cases op <;> rfl

theorem Connective.join_bare (op : Connective) (line : Nat) (left right : Expr) :
    (op.join line left right).bare groups = op.join line (left.bare groups) (right.bare groups) := by
  cases op <;> rfl

theorem Connective.join_isTarget (op : Connective) (line : Nat) (left right : Expr) :
    (op.join line left right).isTarget = false := by
  cases op <;> rfl

theorem Expr.Resembles.of_not_target (h : e'.bare groups = e.bare groups) (ht : e.isTarget = false) : e.Resembles groups e' :=
  ⟨h, fun hc => Bool.noConfusion (ht.symm.trans hc)⟩

theorem Expr.Resembles.of_var {id : NodeId} {name : Name} (h : (Expr.var id name).Resembles groups e) :
    ∃ id', e = .var id' name := by
  have hb := h.bare
  have ht := h.target rfl
  cases e with
  | var id' name' =>
    obtain rfl := (Expr.var.inj hb).2
    exact ⟨id', rfl⟩
  | get => exact nomatch hb
  | _ => cases ht

theorem Expr.Resembles.of_get {object : Expr} {name : Name} (h : (Expr.get object name).Resembles groups e) :
    ∃ object', e = .get object' name ∧ object'.bare groups = object.bare groups := by
  have hb := h.bare
  have ht := h.target rfl
  cases e with
  | var => exact nomatch hb
  | get object' name' =>
    obtain ⟨hobject, rfl⟩ := Expr.get.inj hb
    exact ⟨object', rfl, hobject⟩
  | _ => cases ht

/-- What can be assigned to is closed. -/
theorem Expr.isOpen_of_assigned {target value : Expr} (h : target.assigned? value = some e) :
    target.isOpen = false ∧ e.isOpen = false ∧ e.isTarget = false := by
  cases target <;> cases h <;> exact ⟨rfl, rfl, rfl⟩

/-- With another value, the target is assigned to in the same way. -/
theorem Expr.assigned?_congr {target value : Expr} (h : target.assigned? value = some e) (value' : Expr) :
    ∃ e', target.assigned? value' = some e' ∧ (value'.bare groups = value.bare groups → e'.bare groups = e.bare groups) := by
  cases target with
  | var id name => cases h; exact ⟨_, rfl, congrArg (Expr.assign 0 name)⟩
  | get object name => cases h; exact ⟨_, rfl, congrArg (Expr.set _ name)⟩
  | _ => cases h

end

namespace Parse

section
variable {groups : Bool} {e target target' value value' operand operand' : Expr} {rest : List Token} {site : Site}
  {fault : SyntaxFault}

theorem takes_assignTo (ht : target.Resembles groups target') (hv : value'.bare groups = value.bare groups)
    (he : target.assigned? value = some e) : Takes (assignTo target' value' site fault) (e.Resembles groups) [] rest := by
  cases target with
  | var id name =>
    obtain ⟨id', rfl⟩ := ht.of_var
    cases he
    exact takes_freshId fun _ => .pure (.of_not_target (congrArg (Expr.assign 0 name) hv) rfl)
  | get object name =>
    obtain ⟨object', rfl, hobject⟩ := ht.of_get
    cases he
    exact .pure (.of_not_target (congrArg₂ (Expr.set · name ·) hobject hv) rfl)
  | _ => cases he

theorem takes_updateBy {op : Mark} (ht : target.Resembles groups target') (hv : operand'.bare groups = operand.bare groups)
    (he : target.assigned? (.binary op site.line target operand) = some e) :
    Takes (updateBy op target' operand' site fault) (e.Resembles groups) [] rest := by
  have hcopy : Takes (reread target') (fun old => old.bare groups = target.bare groups) [] rest := fun r hr =>
    .inr ⟨_, _, rfl, (target'.fresh_bare groups r.nextId).trans ht.bare, hr, rfl⟩
  refine hcopy.silent fun old hold => takes_assignTo ht (?_ : (Expr.binary op site.line old operand').bare groups = _) he
  exact congrArg₂ (Expr.binary op site.line) hold hv

end

/-! ### Atoms -/

section
variable {groups : Bool} {t t' t'' : Token} {rest : List Token} {x : String}

theorem takes_literal {value : Literal} (ht : t.kind.literal? = some value) :
    Takes atom? (fun found => ∃ e, found = some e ∧ (Expr.literal value).Resembles groups e) [t] rest := by
  refine takes_line (takes_peek ?_)
  have hnext : next? ([t] ++ rest) = some t.kind := rfl
  rw [hnext]
  unfold Token.Kind.literal? at ht
  split at ht
  case h_6 => cases ht
  all_goals
    rename_i hk
    rw [hk]
    cases ht
    exact takes_skip (.pure ⟨_, rfl, rfl, id⟩)

theorem takes_variable (ht : t.kind = .identifier x) :
    Takes atom? (fun found => ∃ e, found = some e ∧ (Expr.var 0 ⟨x, t.line⟩).Resembles groups e) [t] rest := by
  refine takes_line (takes_peek ?_)
  have hnext : next? ([t] ++ rest) = some (.identifier x) := congrArg some ht
  rw [hnext]
  exact takes_skip (takes_freshId fun id => .pure ⟨_, rfl, rfl, fun _ => rfl⟩)

theorem takes_this (ht : t.kind = .keyword .this) :
    Takes atom? (fun found => ∃ e, found = some e ∧ (Expr.this 0 t.line).Resembles groups e) [t] rest := by
  refine takes_line (takes_peek ?_)
  have hnext : next? ([t] ++ rest) = some (.keyword .this) := congrArg some ht
  rw [hnext]
  exact takes_skip (takes_freshId fun id => .pure ⟨_, rfl, .of_not_target rfl rfl⟩)

theorem takes_super (ht : t.kind = .keyword .super) (ht' : t'.kind = .mark .dot) (ht'' : t''.kind = .identifier x) :
    Takes atom? (fun found => ∃ e, found = some e ∧ (Expr.super 0 t.line ⟨x, t''.line⟩).Resembles groups e) [t, t', t''] rest := by
  refine takes_line (takes_peek ?_)
  have hnext : next? ([t, t', t''] ++ rest) = some (.keyword .super) := congrArg some ht
  rw [hnext]
  refine takes_skip (takes_mark ht' (takes_name ht'' (takes_freshId fun id => .pure ⟨_, rfl, ?_⟩)))
  exact .of_not_target rfl rfl

theorem takes_noAtom (h : next? rest = some (.mark .leftParen) ∨ next? rest = some (.keyword .fun)) :
    Takes atom? (· = none) [] rest := by
  refine takes_read fun line => takes_peek ?_
  rw [List.nil_append]
  rcases h with h | h <;> rw [h] <;> exact .pure rfl

end

end Parse

namespace Passage.Taken

open Parse

/-! ## Expressions -/

section
variable {groups : Bool} {e left right head target operand : Expr} {ts ts' th ta : List Token} {t t' : Token} {level : Nat}

/-- A whole expression, with a token behind it that does not go on with it. -/
theorem before {kind : Kind} (h : (Passage.expression e).Taken groups ts) (ht : t.kind = kind) (hkind : kind.strength? = none)
    (fuel : Nat) (rest : List Token) : Takes (Parse.expression fuel) (e.Resembles groups) ts (t :: rest) :=
  h fuel (t :: rest) (.of_none (ht ▸ hkind))

theorem plain (h : (Passage.operand 0 e).Taken groups ts) : (Passage.expression e).Taken groups ts := by
  intro fuel rest hrest
  cases fuel with
  | zero => exact .exhausted
  | succ fuel =>
    rw [Parse.expression]
    refine (h fuel rest (hrest.mono (Nat.zero_le _))).whole fun e' he => ?_
    refine (takes_noAssignment hrest).silent fun found hf => ?_
    subst hf
    exact .pure he

theorem operators (hlevel : level < Connective.levels) (hl : (Passage.operand (level + 1) left).Taken groups ts)
    (hs : (Passage.chain level left e).Taken groups ts') : (Passage.operand level e).Taken groups (ts ++ ts') := by
  intro fuel rest hrest
  cases fuel with
  | zero => exact .exhausted
  | succ fuel =>
    rw [Parse.operand, if_pos hlevel]
    exact (hl fuel _ (hs.1 rest hrest)).bind fun left' hleft => hs.2 fuel rest left' hleft hrest

theorem strongest (h : (Passage.unary e).Taken groups ts) : (Passage.operand Connective.levels e).Taken groups ts := by
  intro fuel rest hrest
  cases fuel with
  | zero => exact .exhausted
  | succ fuel =>
    rw [Parse.operand, if_neg (Nat.lt_irrefl _)]
    exact h fuel rest hrest

theorem chainEnd : (Passage.chain level e e).Taken groups [] := by
  refine ⟨fun rest hrest => hrest.mono (e.limit_mono (Nat.le_succ _)), fun fuel rest e' he hrest => ?_⟩
  cases fuel with
  | zero => exact .exhausted
  | succ fuel =>
    rw [Parse.operatorChain]
    refine (takes_noConnective (hrest.mono (e.limit_le _))).silent fun found hf => ?_
    subst hf
    exact .pure he

theorem operator {op : Connective} (hop : Connective.at? level t.kind = some op) (hclosed : left.isOpen = false)
    (hr : (Passage.operand (level + 1) right).Taken groups ts) (hs : (Passage.chain level (op.join t.line left right) e).Taken groups ts') :
    (Passage.chain level left e).Taken groups (t :: (ts ++ ts')) := by
  refine ⟨fun rest hrest => ?_, fun fuel rest left' hleft hrest => ?_⟩
  · rw [Expr.limit_of_closed hclosed]
    exact .of_some (Connective.strength hop) (Nat.lt_succ_self _)
  · cases fuel with
    | zero => exact .exhausted
    | succ fuel =>
      rw [Parse.operatorChain]
      refine (takes_connective hop).head fun found hf => ?_
      subst hf
      have hends := hs.1 rest hrest
      rw [Expr.limit_congr (op.join_isOpen _ _ _)] at hends
      refine (hr fuel _ hends).bind fun right' hright => hs.2 fuel rest _ ?_ hrest
      refine .of_not_target ?_ (op.join_isTarget _ _ _)
      rw [op.join_bare, op.join_bare, hleft.bare, hright.bare]

theorem leading {mark op : Mark} (ht : t.kind = .mark mark) (hm : Leading.ofMark? mark = some (.operator op))
    (h : (Passage.unary e).Taken groups ts) : (Passage.unary (.unary op t.line e)).Taken groups (t :: ts) := by
  intro fuel rest hrest
  cases fuel with
  | zero => exact .exhausted
  | succ fuel =>
    rw [Parse.unary]
    refine (takes_leading ht hm).head fun found hf => ?_
    subst hf
    exact (h fuel rest hrest).map fun e' he => .of_not_target (congrArg (Expr.unary op t.line) he.bare) rfl

theorem called (h : (Passage.call e).Taken groups ts) : (Passage.unary e).Taken groups ts :=
  fun fuel rest hrest => h fuel rest (hrest.mono (e.limit_mono (by decide)))

theorem suffixed (hh : (Passage.primary head).Taken groups th)
    (hnone : ∀ rest m, next? (th ++ rest) = some (.mark m) → Leading.ofMark? m = none)
    (hs : (Passage.suffixes head e).Taken groups ts) : (Passage.call e).Taken groups (th ++ ts) := by
  intro fuel rest hrest
  cases fuel with
  | zero => exact .exhausted
  | succ fuel =>
    rw [Parse.unary]
    refine (takes_noLeading fun m hm => hnone (ts ++ rest) m (List.append_assoc .. ▸ hm)).silent fun found hf => ?_
    subst hf
    exact (hh fuel _ (hs.1 rest hrest)).bind fun head' hhead => hs.2 fuel rest head' hhead hrest

theorem suffixEnd : (Passage.suffixes e e).Taken groups [] := by
  refine ⟨fun rest hrest => hrest.mono (e.limit_mono (by decide)), fun fuel rest e' he hrest => ?_⟩
  have hrest := hrest.mono (e.limit_le _)
  cases fuel with
  | zero => exact .exhausted
  | succ fuel =>
    rw [Parse.suffixes]
    exact takes_no (hrest.next_ne rfl (Nat.le_refl _)) (takes_no (hrest.next_ne rfl (Nat.le_refl _)) (.pure he))

theorem invoked {es : List Expr} (ht : t.kind = .mark .leftParen) (hclosed : head.isOpen = false) (hlen : es.length ≤ maxArity)
    (hargs : (Passage.arguments es).Taken groups ta) (hopens : (Passage.arguments es).Begins ta) (ht' : t'.kind = .mark .rightParen)
    (hs : (Passage.suffixes (.call head t'.line es) e).Taken groups ts) :
    (Passage.suffixes head e).Taken groups (t :: (ta ++ t' :: ts)) := by
  refine ⟨fun rest hrest => ?_, fun fuel rest head' hhead hrest => ?_⟩
  · rw [Expr.limit_of_closed hclosed]
    exact .of_some (ht ▸ rfl) (Nat.lt_succ_self _)
  · cases fuel with
    | zero => exact .exhausted
    | succ fuel =>
      rw [Parse.suffixes]
      have hnext : next? (t' :: ts ++ rest) = some (.mark .rightParen) := congrArg some ht'
      have hargs : Takes (unlessAt .rightParen (Parse.argumentList fuel 0))
          (fun found => bareExprs groups (found.getD []) = bareExprs groups es) ta (t' :: ts ++ rest) := by
        by_cases hes : es = []
        · obtain rfl := hargs.1 hes
          subst hes
          exact (takes_absent hnext).imp fun found hfound => hfound ▸ rfl
        · have hne : next? (ta ++ (t' :: ts ++ rest)) ≠ some (.mark .rightParen) := (hopens hes).next_ne rfl
          have hlen : 0 + es.length ≤ maxArity := by rwa [Nat.zero_add]
          refine (takes_present hne (hargs.2 fuel _ 0 hes hlen hnext)).imp ?_
          rintro found ⟨es', rfl, hes'⟩
          exact hes'
      refine takes_yes ht (hargs.bind fun found hfound => takes_mark ht' (hs.2 fuel rest _ ?_ hrest))
      exact .of_not_target (congrArg₂ (Expr.call · t'.line ·) hhead.bare hfound) rfl

theorem got {x : String} (ht : t.kind = .mark .dot) (hclosed : head.isOpen = false) (ht' : t'.kind = .identifier x)
    (hs : (Passage.suffixes (.get head ⟨x, t'.line⟩) e).Taken groups ts) :
    (Passage.suffixes head e).Taken groups (t :: t' :: ts) := by
  refine ⟨fun rest hrest => ?_, fun fuel rest head' hhead hrest => ?_⟩
  · rw [Expr.limit_of_closed hclosed]
    exact .of_some (ht ▸ rfl) (Nat.lt_succ_self _)
  · cases fuel with
    | zero => exact .exhausted
    | succ fuel =>
      rw [Parse.suffixes]
      refine takes_other ht rfl (takes_yes ht (takes_name ht' (hs.2 fuel rest _ ?_ hrest)))
      exact ⟨congrArg (Expr.get · _) hhead.bare, fun _ => rfl⟩

/-! ### Weaker operands -/

/-- An operand is one of each weaker level, too. -/
theorem lower (hlevel : level ≤ Connective.levels) (h : (Passage.operand level e).Taken groups ts) {weaker : Nat}
    (hle : weaker ≤ level) : (Passage.operand weaker e).Taken groups ts := by
  induction hle using Nat.decreasingInduction with
  | self => exact h
  | of_succ k hk ih => exact List.append_nil ts ▸ operators (Nat.lt_of_lt_of_le hk hlevel) ih chainEnd

theorem operand_of_call (h : (Passage.call e).Taken groups ts) (hlevel : level ≤ Connective.levels) :
    (Passage.operand level e).Taken groups ts :=
  h.called.strongest.lower (Nat.le_refl _) hlevel

/-! ### Assignments -/

/-- An assignment as it is written. -/
theorem assign {mark : Mark} {form : Assignment} (ht : t.kind = .mark mark) (hm : Assignment.ofMark? mark = some form)
    (htarget : (Passage.call target).Taken groups ts) (hoperand : (Passage.expression operand).Taken groups ts')
    (he : target.assigned? (form.value t.line target operand) = some e) :
    (Passage.expression e).Taken groups (ts ++ t :: ts') := by
  intro fuel rest hrest
  cases fuel with
  | zero => exact .exhausted
  | succ fuel =>
    have hends : Ends (target.limit 1) ((t :: ts' ++ rest).map Token.kind) := by
      rw [Expr.limit_of_closed (Expr.isOpen_of_assigned he).1]
      exact .of_some (ht ▸ Assignment.strength hm) Nat.zero_lt_one
    rw [Parse.expression]
    refine (htarget.operand_of_call (Nat.zero_le _) fuel _ hends).bind fun target' htarget' => ?_
    refine (takes_assignment ht hm).head fun found hf => ?_
    subst hf
    cases form with
    | store => exact (hoperand fuel rest hrest).whole fun value' hvalue => takes_assignTo htarget' hvalue.bare he
    | combine op =>
      exact (hoperand fuel rest hrest).whole fun operand' hoperand' => takes_updateBy htarget' hoperand'.bare he

/-- A step as it is written. -/
theorem step {mark op : Mark} (ht : t.kind = .mark mark) (hm : Leading.ofMark? mark = some (.increment op))
    (htarget : (Passage.call target).Taken groups ts)
    (he : target.assigned? (.binary op t.line target (.literal (.number 1))) = some e) :
    (Passage.unary e).Taken groups (t :: ts) := by
  intro fuel rest hrest
  obtain ⟨htclosed, heclosed, -⟩ := Expr.isOpen_of_assigned he
  rw [Expr.limit_of_closed heclosed] at hrest
  cases fuel with
  | zero => exact .exhausted
  | succ fuel =>
    rw [Parse.unary]
    refine (takes_leading ht hm).head fun found hf => ?_
    subst hf
    have hends : Ends (target.limit Rank.call) (rest.map Token.kind) := by
      rw [Expr.limit_of_closed htclosed]
      exact hrest.mono (by decide)
    exact (htarget fuel rest hends).whole fun target' htarget' => takes_updateBy htarget' rfl he

theorem group (ht : t.kind = .mark .leftParen) (h : (Passage.expression e).Taken groups ts) (ht' : t'.kind = .mark .rightParen) :
    (Passage.primary (.group e)).Taken groups (t :: (ts ++ [t'])) := by
  intro fuel rest hrest
  cases fuel with
  | zero => exact .exhausted
  | succ fuel =>
    rw [Parse.primary]
    refine (takes_noAtom (.inl (next?_cons ht))).silent fun found hf => ?_
    subst hf
    refine takes_line (takes_yes ht ((h.before ht' rfl fuel rest).bind fun e' he => takes_mark ht' (.pure ?_)))
    refine .of_not_target ?_ rfl
    rw [Expr.bare, Expr.bare, he.bare]

/-- A group is a call with nothing behind it. -/
theorem call_of_group (ht : t.kind = .mark .leftParen) (h : (Passage.expression e).Taken groups ts) (ht' : t'.kind = .mark .rightParen) :
    (Passage.call (.group e)).Taken groups (t :: (ts ++ [t'])) := by
  have hnone : ∀ rest m, next? (t :: (ts ++ [t']) ++ rest) = some (.mark m) → Leading.ofMark? m = none := fun rest m hm => by
    cases ht.symm.trans (Option.some.inj hm)
    rfl
  exact List.append_nil (t :: (ts ++ [t'])) ▸ suffixed (group ht h ht') hnone suffixEnd

/-- Two operands with an operator between them. -/
theorem joined {mark : Mark} {op : Connective} (hop : Connective.ofKind? (.mark mark) = some (level, op)) (ht : t.kind = .mark mark)
    (hclosed : left.isOpen = false) (hl : (Passage.call left).Taken groups ts) (hr : (Passage.call right).Taken groups ts') :
    (Passage.expression (op.join t.line left right)).Taken groups (ts ++ t :: ts') := by
  have hlevel : level < Connective.levels := by
    cases mark <;> cases hop <;> decide
  have hat : Connective.at? level t.kind = some op := Connective.at?_eq_some.mpr (ht ▸ hop)
  have hchain : (Passage.chain level left (op.join t.line left right)).Taken groups (t :: (ts' ++ [])) :=
    operator hat hclosed (hr.operand_of_call hlevel) chainEnd
  rw [List.append_nil] at hchain
  exact ((hl.operand_of_call hlevel).operators hlevel hchain |>.lower (Nat.le_of_lt hlevel) (Nat.zero_le _)).plain

theorem of_atom (h : ∀ rest, Takes atom? (fun found => ∃ e', found = some e' ∧ e.Resembles groups e') ts rest) :
    (Passage.primary e).Taken groups ts := by
  intro fuel rest _
  cases fuel with
  | zero => exact .exhausted
  | succ fuel =>
    rw [Parse.primary]
    refine (h rest).whole fun found hfound => ?_
    obtain ⟨e', rfl, he⟩ := hfound
    exact .pure he

theorem expression_congr {e' : Expr} (h : (Passage.expression e).Taken groups ts) (hb : e.bare groups = e'.bare groups)
    (ht : e'.isTarget = false) : (Passage.expression e').Taken groups ts :=
  fun fuel rest hrest => (h fuel rest hrest).imp fun _ he => .of_not_target (he.bare.trans hb) ht

/-! ### Long forms -/

/-- `T = T op (E)` -/
theorem assign_written {op : Mark} {line : Nat} (hop : Connective.ofKind? (.mark op) = some (level, .binary op))
    (htarget : (Passage.call target).Taken false ts) (hoperand : (Passage.expression operand).Taken false ts')
    (he : target.assigned? (.binary op line target operand) = some e) :
    (Passage.expression e).Taken false (ts ++ ⟨.mark .equal, line⟩ :: (ts ++ ⟨.mark op, line⟩ :: ⟨.mark .leftParen, line⟩ ::
      (ts' ++ [⟨.mark .rightParen, line⟩]))) := by
  obtain ⟨hclosed, -, hnot⟩ := Expr.isOpen_of_assigned he
  have hgroup : (Passage.call (.group operand)).Taken false (⟨.mark .leftParen, line⟩ :: (ts' ++ [⟨.mark .rightParen, line⟩])) :=
    call_of_group rfl hoperand rfl
  have hvalue := joined (t := ⟨.mark op, line⟩) hop rfl hclosed htarget hgroup
  obtain ⟨e', he', hbare⟩ := Expr.assigned?_congr he (.binary op line target (.group operand))
  exact (assign (t := ⟨.mark .equal, line⟩) rfl rfl htarget hvalue he').expression_congr (hbare rfl) hnot

/-- `(T = T + 1)` -/
theorem step_written {op : Mark} {line : Nat} (hop : Connective.ofKind? (.mark op) = some (level, .binary op))
    (htarget : (Passage.call target).Taken false ts)
    (he : target.assigned? (.binary op line target (.literal (.number 1))) = some e) :
    (Passage.unary e).Taken false (⟨.mark .leftParen, line⟩ :: (ts ++ ⟨.mark .equal, line⟩ :: (ts ++
      [⟨.mark op, line⟩, ⟨.number "1" 1, line⟩, ⟨.mark .rightParen, line⟩]))) := by
  obtain ⟨hclosed, heclosed, hnot⟩ := Expr.isOpen_of_assigned he
  have hone : (Passage.call (.literal (.number 1))).Taken false ([⟨.number "1" 1, line⟩] ++ []) :=
    suffixed (of_atom fun rest => takes_literal rfl) (fun _ _ hm => nomatch hm) suffixEnd
  have hvalue := joined (t := ⟨.mark op, line⟩) hop rfl hclosed htarget hone
  have hassign := assign (t := ⟨.mark .equal, line⟩) rfl rfl htarget hvalue he
  have hgroup : (Passage.call (.group e)).Taken false (⟨.mark .leftParen, line⟩ :: (_ ++ [⟨.mark .rightParen, line⟩])) :=
    call_of_group rfl hassign rfl
  intro fuel rest hrest
  rw [Expr.limit_of_closed heclosed] at hrest
  simpa using (hgroup.called fuel rest hrest).imp fun e' he' => Expr.Resembles.of_not_target (e := e) he'.bare hnot

end

end Passage.Taken

end Lox
