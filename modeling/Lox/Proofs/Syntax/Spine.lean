import Lox.Proofs.Syntax.Spelled

/-!
# Expressions from left to right

An expression of some strength begins with a stronger one, and what is behind that is added to it piece by piece: the
operators of one level, or calls and properties. No token after the expression may go on with it.
-/

namespace Lox

open Token (Kind)

/-! ## Beginnings -/

/-- An expression can begin with the token. -/
def Token.Kind.startsExpression : Kind → Bool
  | .keyword k => k ∈ [.false, .true, .nil, .this, .super, .fun]
  | .mark m => m ∈ [.leftParen, .bang, .minus]
  | .identifier _ | .string _ | .number _ _ => true
  | .eof => false

/-- Where an expression begins with `fun`, no name comes next. -/
def BeginsExpression (ks : List Kind) : Prop :=
  ∃ kind more, ks = kind :: more ∧ kind.startsExpression = true ∧
    (kind = .keyword .fun → more.head? = some (.mark .leftParen))

namespace BeginsExpression

variable {ks rest : List Kind}

theorem single {kind : Kind} (h : kind.startsExpression = true) (hne : kind ≠ .keyword .fun) :
    BeginsExpression (kind :: rest) :=
  ⟨kind, rest, rfl, h, fun he => absurd he hne⟩

theorem append (h : BeginsExpression ks) : BeginsExpression (ks ++ rest) := by
  obtain ⟨kind, more, rfl, hk, hf⟩ := h
  exact ⟨kind, more ++ rest, rfl, hk, fun he => by rw [List.head?_append, hf he]; rfl⟩

theorem head_ne (h : BeginsExpression ks) {kind : Kind} (hk : kind.startsExpression = false) :
    (ks ++ rest).head? ≠ some kind := by
  obtain ⟨_, more, rfl, hk', -⟩ := h
  rintro ⟨⟩
  exact Bool.noConfusion (hk.symm.trans hk')

theorem ne_declaration (h : BeginsExpression ks) {name : String} {more : List Kind} :
    ks ++ rest ≠ .keyword .fun :: .identifier name :: more := by
  obtain ⟨kind, _, he, -, hf⟩ : BeginsExpression (ks ++ rest) := h.append
  rintro hks
  rw [hks] at he
  cases he
  exact nomatch hf rfl

end BeginsExpression

section
variable {short : Prop}

theorem Expr.Fits.begins : ∀ {e : Expr} {ks : List Kind}, e.Fits short → e.Written ks → BeginsExpression ks
  | .literal .nil, _, _, rfl => .single rfl nofun
  | .literal (.bool true), _, _, rfl => .single rfl nofun
  | .literal (.bool false), _, _, rfl => .single rfl nofun
  | .literal (.number _), _, _, ⟨_, rfl⟩ => .single rfl nofun
  | .literal (.string _), _, _, rfl => .single rfl nofun
  | .unary op _ _, _, ⟨hop, _, _⟩, ⟨_, rfl, _⟩ => .single (by cases op <;> first | rfl | cases hop) nofun
  | .binary _ _ _ _, _, ⟨_, _, _, h, _⟩, ⟨_, _, rfl, hk, _⟩ => (h.begins hk).append
  | .logical _ _ _ _, _, ⟨_, _, h, _⟩, ⟨_, _, rfl, hk, _⟩ => (h.begins hk).append
  | .group _, _, _, ⟨_, rfl, _⟩ => .single rfl nofun
  | .var _ _, _, _, rfl => .single rfl nofun
  | .assign _ _ _, _, _, ⟨_, rfl, _⟩ => .single rfl nofun
  | .call _ _ _, _, ⟨_, _, h, _⟩, ⟨_, _, rfl, hk, _⟩ => (h.begins hk).append.append
  | .lambda _ ⟨_, _⟩, _, _, ⟨_, rfl, _, rfl, _⟩ => ⟨_, _, rfl, rfl, fun _ => rfl⟩
  | .get _ _, _, ⟨_, h⟩, ⟨_, rfl, hk⟩ => (h.begins hk).append
  | .set _ _ _, _, ⟨_, h, _⟩, ⟨_, _, rfl, hk, _⟩ => (h.begins hk).append
  | .this _ _, _, _, rfl => .single rfl nofun
  | .super _ _ _, _, _, rfl => .single rfl nofun

theorem FitsExprs.begins : ∀ {e : Expr} {es : List Expr} {ks : List Kind}, FitsExprs short (e :: es) →
    WrittenExprs (e :: es) ks → BeginsExpression ks
  | _, [], _, ⟨h, _⟩, hk => h.begins hk
  | _, _ :: _, _, ⟨h, _⟩, ⟨_, _, rfl, hk, _⟩ => (h.begins hk).append

/-- No operator stands before what binds strongest. -/
theorem Expr.Spelled.not_leading {e : Expr} {ks rest : List Kind} {m : Mark} (h : e.Spelled short Rank.primary ks)
    (hk : (ks ++ rest).head? = some (.mark m)) : Leading.ofMark? m = none := by
  obtain ⟨hw, -, hr⟩ := h
  cases e with
  | literal value =>
    match value, hw with
    | .nil, rfl | .bool true, rfl | .bool false, rfl | .number _, ⟨_, rfl⟩ | .string _, rfl => cases hk
  | group inner =>
    obtain ⟨_, rfl, -⟩ := hw
    cases hk
    rfl
  | lambda line routine =>
    obtain ⟨_, rfl, -⟩ := hw
    cases hk
  | var id name => cases hw; cases hk
  | this id line => cases hw; cases hk
  | super id line method => cases hw; cases hk
  | binary op => exact absurd (Nat.lt_of_le_of_lt hr op.rank_lt) (by decide)
  | logical op => exact absurd (Nat.lt_of_le_of_lt hr op.rank_lt) (by decide)
  | _ => simp only [Expr.rank, Rank.assignment, Rank.unary, Rank.call, Rank.primary] at hr; omega

/-- The token that a statement begins with, if it is no expression. -/
def Stmt.opening? : Stmt → Option Kind
  | .expr _ => none
  | .print _ => some (.keyword .print)
  | .varDecl _ _ => some (.keyword .var)
  | .block _ => some (.mark .leftBrace)
  | .branch _ _ _ => some (.keyword .if)
  | .loop _ _ => some (.keyword .while)
  | .funDecl _ _ => some (.keyword .fun)
  | .returns _ _ _ => some (.keyword .return)
  | .breaks _ => some (.keyword .break)
  | .classDecl _ _ _ _ => some (.keyword .klass)

section
variable {st : Stmt} {ks rest : List Kind}

theorem Stmt.Fits.begins (hf : st.Fits short) (hk : st.Written ks) :
    BeginsExpression ks ∨ ∃ kind more, st.opening? = some kind ∧ ks = kind :: more := by
  cases st with
  | expr e =>
    obtain ⟨ke, rfl, hk⟩ := hk
    exact .inl (Expr.Fits.begins hf hk).append
  | print e => obtain ⟨_, rfl, -⟩ := hk; exact .inr ⟨_, _, rfl, rfl⟩
  | varDecl name initializer =>
    cases initializer with
    | none => obtain rfl := hk; exact .inr ⟨_, _, rfl, rfl⟩
    | some e => obtain ⟨_, rfl, -⟩ := hk; exact .inr ⟨_, _, rfl, rfl⟩
  | block body => obtain ⟨_, rfl, -⟩ := hk; exact .inr ⟨_, _, rfl, rfl⟩
  | branch condition thenBranch elseBranch =>
    cases elseBranch with
    | none => obtain ⟨_, _, rfl, -⟩ := hk; exact .inr ⟨_, _, rfl, rfl⟩
    | some e => obtain ⟨_, _, _, rfl, -⟩ := hk; exact .inr ⟨_, _, rfl, rfl⟩
  | loop condition body => obtain ⟨_, _, rfl, -⟩ := hk; exact .inr ⟨_, _, rfl, rfl⟩
  | funDecl name routine => obtain ⟨_, rfl, -⟩ := hk; exact .inr ⟨_, _, rfl, rfl⟩
  | returns form line value =>
    cases form with
    | expressionBody => exact hk.elim
    | keyword =>
      cases value with
      | none => obtain rfl := hk; exact .inr ⟨_, _, rfl, rfl⟩
      | some e => obtain ⟨_, rfl, -⟩ := hk; exact .inr ⟨_, _, rfl, rfl⟩
  | breaks line => obtain rfl := hk; exact .inr ⟨_, _, rfl, rfl⟩
  | classDecl name superclass methods statics => obtain ⟨_, _, _, rfl, -⟩ := hk; exact .inr ⟨_, _, rfl, rfl⟩

/-- No statement begins as what ends a block or a branch. -/
theorem Stmt.Fits.begins_unlike (hf : st.Fits short) (hk : st.Written ks) :
    ∃ kind more, ks = kind :: more ∧ kind ≠ .keyword .else ∧ kind ≠ .mark .rightBrace := by
  rcases hf.begins hk with ⟨kind, more, rfl, hs, -⟩ | ⟨kind, more, ho, rfl⟩
  · refine ⟨kind, more, rfl, ?_, ?_⟩
    all_goals rintro rfl; cases hs
  · exact ⟨kind, more, rfl, by cases st <;> cases ho <;> exact ⟨nofun, nofun⟩⟩

/-- What may be a branch does not begin as a declaration. -/
theorem Stmt.Fits.ne_declaration (hf : st.Fits short) (hk : st.Written ks) (hinner : st.isDeclaration = false)
    (rest : List Kind) :
    (ks ++ rest).head? ≠ some (.keyword .klass) ∧ (ks ++ rest).head? ≠ some (.keyword .var) ∧
      ∀ name more, ks ++ rest ≠ .keyword .fun :: .identifier name :: more := by
  rcases hf.begins hk with h | ⟨kind, more, ho, rfl⟩
  · exact ⟨h.head_ne rfl, h.head_ne rfl, fun _ _ => h.ne_declaration⟩
  · cases st <;> cases ho <;> cases hinner <;> exact ⟨nofun, nofun, nofun⟩

theorem FitsStmts.no_else {sts : List Stmt} (hf : FitsStmts short sts) (hk : WrittenStmts sts ks)
    (hrest : rest.head? ≠ some (.keyword .else)) : (ks ++ rest).head? ≠ some (.keyword .else) := by
  cases sts with
  | nil =>
    obtain rfl := hk
    exact hrest
  | cons st sts =>
    obtain ⟨k, kr, rfl, hk, -⟩ := hk
    obtain ⟨kind, more, rfl, hne, -⟩ := Stmt.Fits.begins_unlike hf.1 hk
    exact fun he => hne (Option.some.inj he)

end

end

/-! ## Ends -/

/-- How strongly the token binds what is before it, if it goes on with an expression. -/
def Token.Kind.strength? : Kind → Option Nat
  | .mark .leftParen | .mark .dot => some Rank.call
  | .mark .equal | .mark .plusEqual | .mark .minusEqual | .mark .starEqual | .mark .slashEqual | .mark .percentEqual =>
    some Rank.assignment
  | kind => (Connective.ofKind? kind).map (·.1 + 1)

theorem Connective.strength {kind : Kind} {level : Nat} {c : Connective} (h : at? level kind = some c) :
    kind.strength? = some (level + 1) := by
  have h := at?_eq_some.mp h
  unfold ofKind? at h
  split at h <;> cases h <;> rfl

theorem Assignment.strength {m : Mark} {form : Assignment} (h : ofMark? m = some form) :
    (Kind.mark m).strength? = some Rank.assignment := by
  cases m <;> cases h <;> rfl

/-- Nothing comes next that binds so strongly, or stronger. -/
def Ends (rank : Nat) : List Kind → Prop
  | [] => True
  | kind :: _ => ∀ n, kind.strength? = some n → n < rank

namespace Ends

variable {m n rank : Nat} {ks : List Kind} {kind : Kind}

theorem mono (h : Ends m ks) (hmn : m ≤ n) : Ends n ks := by
  cases ks with
  | nil => trivial
  | cons kind ks => exact fun k hk => Nat.lt_of_lt_of_le (h k hk) hmn

theorem of_none (h : kind.strength? = none) : Ends rank (kind :: ks) := fun _ hk => nomatch h.symm.trans hk

theorem of_head (h : ks.head? = some kind) (hk : kind.strength? = none) : Ends rank ks := by
  obtain ⟨more, rfl⟩ := List.head?_eq_some_iff.mp h
  exact of_none hk

theorem of_some (h : kind.strength? = some m) (hm : m < rank) : Ends rank (kind :: ks) := fun _ hk =>
  Option.some.inj (h.symm.trans hk) ▸ hm

theorem ne (h : Ends rank ks) (hk : kind.strength? = some m) (hm : rank ≤ m) : ks.head? ≠ some kind := by
  cases ks with
  | nil => exact nofun
  | cons kind' ks =>
    rintro ⟨⟩
    exact absurd (h m hk) (Nat.not_lt.mpr hm)

end Ends

/-! ## What is added -/

/-- One step after another, written one behind the other. -/
inductive Trail (step : Expr → Expr → List Kind → Prop) : (first last : Expr) → List Kind → Prop
  | nil {e} : Trail step e e []
  | cons {e e' e'' ks ks'} : step e e' ks → Trail step e' e'' ks' → Trail step e e'' (ks ++ ks')

theorem Trail.snoc {step : Expr → Expr → List Kind → Prop} {e e' e'' : Expr} {ks ks' : List Kind} (h : Trail step e e' ks)
    (hs : step e' e'' ks') : Trail step e e'' (ks ++ ks') := by
  induction h with
  | nil => simpa using Trail.cons hs .nil
  | cons h _ ih => exact List.append_assoc .. ▸ .cons h (ih hs)

section
variable (short : Prop)

/-- An operator of this level and its right side. -/
inductive Joins (level : Nat) : (left e : Expr) → List Kind → Prop
  | join {kind c left right kr} (line : Nat) : Connective.at? level kind = some c → right.Spelled short (level + 2) kr →
      Joins level left (c.join line left right) (kind :: kr)

/-- A call or a property. -/
inductive Extends : (head e : Expr) → List Kind → Prop
  | call {head arguments ka} (line : Nat) : arguments.length ≤ maxArity → FitsExprs short arguments →
      WrittenExprs arguments ka → Extends head (.call head line arguments) (.mark .leftParen :: ka ++ [.mark .rightParen])
  | get {object} (name : Name) : Extends object (.get object name) [.mark .dot, .identifier name.text]

end

/-- Nothing that follows on a level goes on with an operand of it. -/
theorem Trail.ends {short : Prop} {level : Nat} {left e : Expr} {ks rest : List Kind}
    (h : Trail (Joins short level) left e ks) (hrest : Ends (level + 1) rest) : Ends (level + 2) (ks ++ rest) := by
  cases h with
  | nil => exact hrest.mono (Nat.le_succ _)
  | cons hj _ =>
    cases hj with
    | join _ hc _ => exact .of_some (Connective.strength hc) (Nat.lt_succ_self _)

/-- The assignment of a value to a target. -/
inductive Assigns (value : Expr) : (target e : Expr) → Prop
  | var {id id' name} : Assigns value (.var id name) (.assign id' name value)
  | get {object name} : Assigns value (.get object name) (.set object name value)

namespace Expr.Spelled

variable {short : Prop} {e : Expr} {ks : List Kind} {level : Nat}

theorem joined (hlevel : level < Connective.levels) (h : e.Spelled short (level + 1) ks) (hrank : ¬ level + 2 ≤ e.rank) :
    ∃ left kl kr, ks = kl ++ kr ∧ left.Spelled short (level + 1) kl ∧ Joins short level left e kr := by
  obtain ⟨hw, hf, hr⟩ := h
  have hrank : e.rank = level + 1 := by omega
  unfold Connective.levels at hlevel
  cases e with
  | binary op line left right =>
    obtain ⟨kl, kr, rfl, hkl, hkr⟩ := hw
    obtain ⟨-, hl, hr, hfl, hfr⟩ := hf
    have hop : op.rank = level + 1 := hrank
    have hat : Connective.at? level (.mark op) = some (.binary op) := by
      rw [Connective.at?_eq_some]
      cases op <;> cases hop <;> rfl
    rw [hop] at hl hr
    exact ⟨left, kl, _, rfl, ⟨hkl, hfl, hl⟩, .join line hat ⟨hkr, hfr, hr⟩⟩
  | logical op line left right =>
    obtain ⟨kl, kr, rfl, hkl, hkr⟩ := hw
    obtain ⟨hl, hr, hfl, hfr⟩ := hf
    have hop : op.rank = level + 1 := hrank
    have hat : Connective.at? level (.keyword op.keyword) = some (.logical op) := by
      rw [Connective.at?_eq_some]
      cases op <;> cases hop <;> rfl
    rw [hop] at hl hr
    exact ⟨left, kl, _, rfl, ⟨hkl, hfl, hl⟩, .join line hat ⟨hkr, hfr, hr⟩⟩
  | _ => simp only [Expr.rank, Rank.assignment, Rank.unary, Rank.call, Rank.primary] at hrank; omega

/-- The leftmost operand of a level, and the operators behind it. -/
theorem chain (hlevel : level < Connective.levels) (h : e.Spelled short (level + 1) ks) :
    ∃ first kf kt, ks = kf ++ kt ∧ first.Spelled short (level + 2) kf ∧ Trail (Joins short level) first e kt := by
  induction hn : ks.length using Nat.strong_induction_on generalizing e ks with
  | _ n ih =>
    by_cases hrank : level + 2 ≤ e.rank
    · exact ⟨e, ks, [], (List.append_nil ks).symm, ⟨h.written, h.fits, hrank⟩, .nil⟩
    · obtain ⟨left, kl, kr, rfl, hl, hj⟩ := h.joined hlevel hrank
      have hlt : kl.length < n := by
        cases hj
        simp only [← hn, List.length_append, List.length_cons]
        omega
      obtain ⟨first, kf, kt, rfl, hf, ht⟩ := ih kl.length hlt hl rfl
      exact ⟨first, kf, kt ++ kr, List.append_assoc .., hf, ht.snoc hj⟩

theorem extended (h : e.Spelled short Rank.call ks) (hrank : ¬ Rank.primary ≤ e.rank) :
    ∃ head kh kx, ks = kh ++ kx ∧ head.Spelled short Rank.call kh ∧ Extends short head e kx := by
  obtain ⟨hw, hf, hr⟩ := h
  cases e with
  | call callee line arguments =>
    obtain ⟨kc, ka, rfl, hkc, hka⟩ := hw
    obtain ⟨hr, hlen, hfc, hfa⟩ := hf
    exact ⟨callee, kc, _, List.append_assoc .., ⟨hkc, hfc, hr⟩, .call line hlen hfa hka⟩
  | get object name =>
    obtain ⟨ko, rfl, hko⟩ := hw
    exact ⟨object, ko, _, rfl, ⟨hko, hf.2, hf.1⟩, .get name⟩
  | binary op => exact absurd (Nat.lt_of_le_of_lt hr op.rank_lt) (by decide)
  | logical op => exact absurd (Nat.lt_of_le_of_lt hr op.rank_lt) (by decide)
  | _ => simp only [Expr.rank, Rank.assignment, Rank.unary, Rank.call, Rank.primary] at hr hrank; omega

/-- What stands before the calls and properties. -/
theorem primary (h : e.Spelled short Rank.call ks) :
    ∃ head kh kt, ks = kh ++ kt ∧ head.Spelled short Rank.primary kh ∧ Trail (Extends short) head e kt := by
  induction hn : ks.length using Nat.strong_induction_on generalizing e ks with
  | _ n ih =>
    by_cases hrank : Rank.primary ≤ e.rank
    · exact ⟨e, ks, [], (List.append_nil ks).symm, ⟨h.written, h.fits, hrank⟩, .nil⟩
    · obtain ⟨head, kh, kx, rfl, hh, hx⟩ := h.extended hrank
      have hlt : kh.length < n := by
        cases hx <;> simp only [← hn, List.length_append, List.length_cons] <;> omega
      obtain ⟨head', kf, kt, rfl, hf, ht⟩ := ih kh.length hlt hh rfl
      exact ⟨head', kf, kt ++ kx, List.append_assoc .., hf, ht.snoc hx⟩

theorem assigned (h : e.Spelled short Rank.assignment ks) : e.Spelled short 1 ks ∨
    ∃ target value kt kv, ks = kt ++ .mark .equal :: kv ∧ target.Spelled short 1 kt ∧
      value.Spelled short Rank.assignment kv ∧ Assigns value target e := by
  obtain ⟨hw, hf, -⟩ := h
  cases e with
  | assign id name value =>
    obtain ⟨kv, rfl, hkv⟩ := hw
    exact .inr ⟨.var id name, value, [_], kv, rfl, ⟨rfl, trivial, Nat.le_of_ble_eq_true rfl⟩, ⟨hkv, hf, Nat.zero_le _⟩, .var⟩
  | set object name value =>
    obtain ⟨ko, kv, rfl, hko, hkv⟩ := hw
    obtain ⟨hr, hfo, hfv⟩ := hf
    have htarget : (Expr.get object name).Spelled short 1 (ko ++ [.mark .dot, .identifier name.text]) :=
      ⟨⟨ko, rfl, hko⟩, ⟨hr, hfo⟩, Nat.le_of_ble_eq_true rfl⟩
    exact .inr ⟨.get object name, value, _, kv, by simp, htarget, ⟨hkv, hfv, Nat.zero_le _⟩, .get⟩
  | binary op => exact .inl ⟨hw, hf, hf.1⟩
  | logical op => exact .inl ⟨hw, hf, by cases op <;> exact Nat.le_of_ble_eq_true rfl⟩
  | _ => exact .inl ⟨hw, hf, Nat.le_of_ble_eq_true rfl⟩

end Expr.Spelled

end Lox
