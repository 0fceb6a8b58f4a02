import Lox.Proofs.Grammar.Atoms

/-!
# The rules that make the parts of a tree

Operators, atoms, assignments and parameter lists.
-/

namespace Lox

/-! ## Operators -/

theorem Assignment.isBinary_of_ofMark? : ∀ {m op : Mark}, Assignment.ofMark? m = some (.combine op) → op.isBinary = true
  | .plusEqual, _, rfl => rfl
  | .minusEqual, _, rfl => rfl
  | .starEqual, _, rfl => rfl
  | .slashEqual, _, rfl => rfl
  | .percentEqual, _, rfl => rfl

/-- What the leading mark does is done with an operator. -/
def Leading.Proper : Leading → Prop
  | .operator op => op.isUnary = true
  | .increment op => op.isBinary = true

theorem Leading.proper_of_ofMark? : ∀ {m : Mark} {form : Leading}, Leading.ofMark? m = some form → form.Proper
  | .bang, _, rfl => rfl
  | .minus, _, rfl => rfl
  | .plusPlus, _, rfl => rfl
  | .minusMinus, _, rfl => rfl

def Connective.Proper : Connective → Prop
  | .logical _ => True
  | .binary op => op.isBinary = true

theorem Connective.proper_of_ofKind? {kind : Token.Kind} {level : Nat} {c : Connective}
    (h : ofKind? kind = some (level, c)) : c.Proper := by
  unfold ofKind? at h
  split at h <;> cases h <;> trivial

theorem Connective.proper_of_at? {kind : Token.Kind} {level : Nat} {c : Connective} (h : at? level kind = some c) :
    c.Proper := by
  unfold at? at h
  split at h
  · rename_i l c' hk
    split at h <;> cases h
    exact proper_of_ofKind? hk
  · cases h

theorem Connective.join_ids (c : Connective) (line : Nat) (left right : Expr) :
    (c.join line left right).ids = left.ids ++ right.ids := by
  cases c <;> rfl

theorem Connective.Proper.join {P : Name → Prop} {left right : Expr} (line : Nat) (hl : left.Proper P ⊤) (hr : right.Proper P ⊤) :
    ∀ {c : Connective}, c.Proper → (c.join line left right).Proper P ⊤
  | .logical _, _ => ⟨hl, hr⟩
  | .binary _, h => ⟨h, hl, hr⟩

namespace Parse

open Reader

section
variable {P : Name → Prop} {r : Reader}

theorem meets_acceptAssignment :
    Meets P acceptAssignment r False fun found _ => ∀ op site, found = some (.combine op, site) → op.isBinary = true := by
  refine .first (meets_read _) fun site _ _ _ => .first meets_kind fun kind r' _ hk => ?_
  obtain ⟨rfl, rfl⟩ := hk
  split
  · rename_i m hm
    split
    · rename_i form hf
      refine .first (meets_skip hm) fun _ _ _ _ => .pure ?_
      intro op _ h
      cases h
      exact Assignment.isBinary_of_ofMark? hf
    · exact .pure nofun
  · exact .pure nofun

theorem meets_acceptLeading :
    Meets P acceptLeading r False fun found r' =>
      ∀ p ∈ found, p.1.Proper ∧ r'.tokens.length < r.tokens.length := by
  refine .first (meets_read _) fun site r₁ _ h₁ => .first meets_kind fun kind r₂ _ hk => ?_
  obtain ⟨rfl, -⟩ := h₁
  obtain ⟨rfl, rfl⟩ := hk
  split
  · rename_i m hm
    split
    · rename_i form hf
      refine .first (meets_skip hm) fun _ _ _ hs => .pure ?_
      intro _ h
      cases h
      exact ⟨Leading.proper_of_ofMark? hf, hs⟩
    · exact .pure nofun
  · exact .pure nofun

theorem meets_acceptConnective (level : Nat) :
    Meets P (acceptConnective level) r False fun found r' =>
      ∀ p ∈ found, p.1.Proper ∧ r'.tokens.length < r.tokens.length := by
  refine .first meets_line fun line r₁ _ h₁ => .first meets_kind fun kind r₂ _ hk => ?_
  obtain ⟨rfl, -⟩ := h₁
  obtain ⟨rfl, rfl⟩ := hk
  split
  · rename_i c hc
    obtain ⟨kind, hk, hc⟩ := Option.bind_eq_some_iff.mp hc
    refine .first (meets_skip hk) fun _ _ _ hs => .pure ?_
    intro _ h
    cases h
    exact ⟨Connective.proper_of_at? hc, hs⟩
  · exact .pure nofun

/-! ## Expressions -/

/-- What reading an expression promises. -/
def ExprRead (P : Name → Prop) (r : Reader) (e : Expr) (r' : Reader) : Prop :=
  r'.tokens.length < r.tokens.length ∧ Spans r.nextId r'.nextId e.ids ∧ e.Proper P ⊤

theorem meets_atom : Meets P atom? r False fun a r' => ∀ e ∈ a, ExprRead P r e r' := by
  have literal : ∀ {kind}, r.kind? = some kind → ∀ value : Literal,
      Meets P (do skip; return some (.literal value)) r False fun a r' => ∀ e ∈ a, ExprRead P r e r' := by
    refine fun hk value => .first (meets_skip hk) fun _ r' hl hs => .pure ?_
    intro _ h
    cases h
    exact ⟨hs, .nil hl.ids, trivial⟩
  refine .first meets_line fun line r₁ _ h₁ => .first meets_kind fun kind r₂ _ hk => ?_
  obtain ⟨rfl, rfl⟩ := h₁
  obtain ⟨rfl, hk⟩ := hk
  split
  · exact literal hk.symm _
  · exact literal hk.symm _
  · exact literal hk.symm _
  · exact literal hk.symm _
  · exact literal hk.symm _
  · refine .first (meets_skip hk.symm) fun _ _ hl hs => .first meets_freshId fun id r' hl' hi => .pure ?_
    intro _ h
    cases h
    exact ⟨Nat.lt_of_le_of_lt hl'.length_le hs, hi.widenLeft hl.ids, trivial⟩
  · refine .first (meets_skip hk.symm) fun _ _ h₁ hs => .first (meets_expectMark _ _) fun _ _ h₂ _ => ?_
    refine .first (meets_expectName _) fun _ _ h₃ _ => .first meets_freshId fun id r' h₄ hi => .pure ?_
    intro _ h
    cases h
    exact ⟨Nat.lt_of_le_of_lt ((h₂.trans h₃).trans h₄).length_le hs,
      hi.widenLeft ((h₁.trans h₂).trans h₃).ids, trivial⟩
  · refine .intro fun hp => ?_
    have hn := hp.head hk.symm
    refine .first (meets_skip hk.symm) fun _ _ hl hs => .first meets_freshId fun id r' hl' hi => .pure ?_
    intro _ h
    cases h
    exact ⟨Nat.lt_of_le_of_lt hl'.length_le hs, hi.widenLeft hl.ids, hn⟩
  · exact .pure nofun

theorem meets_assignTo {target value : Expr} {lo : NodeId} (hs : Spans lo r.nextId (target.ids ++ value.ids))
    (ht : target.Proper P ⊤) (hv : value.Proper P ⊤) (site : Site) (fault : SyntaxFault) :
    Meets P (assignTo target value site fault) r False fun e r' => Spans lo r'.nextId e.ids ∧ e.Proper P ⊤ := by
  have kept : ∀ other : Expr, Spans lo r.nextId (other.ids ++ value.ids) → other.Proper P ⊤ →
      Meets P (do reportAt site fault; return other) r False fun e r' => Spans lo r'.nextId e.ids ∧ e.Proper P ⊤ := by
    refine fun other hs ho => .first (meets_reportAt site fault) fun _ r' hl _ => .pure ⟨?_, ho⟩
    exact hs.left.widen hl.ids
  unfold assignTo
  split
  · exact .first meets_freshId fun id r' _ hi => .pure ⟨hs.right.append hi, ht, hv⟩
  · exact .pure ⟨hs, ht, hv⟩
  · exact kept _ hs ht

theorem meets_updateBy {op : Mark} {target operand : Expr} {lo : NodeId}
    (hs : Spans lo r.nextId (target.ids ++ operand.ids)) (hop : op.isBinary = true) (ht : target.Proper P ⊤)
    (ho : operand.Proper P ⊤) (site : Site) (fault : SyntaxFault) :
    Meets P (updateBy op target operand site fault) r False fun e r' => Spans lo r'.nextId e.ids ∧ e.Proper P ⊤ := by
  refine .first (meets_reread target) fun old r' _ ⟨hi, hold⟩ => ?_
  have hv : (Expr.binary op site.line old operand).Proper P ⊤ := ⟨hop, hold ht, ho⟩
  refine meets_assignTo ?_ ht hv site fault
  have hall : Spans lo r'.nextId (target.ids ++ operand.ids ++ old.ids) := hs.append hi
  rw [List.append_assoc] at hall
  exact hall.perm (List.perm_append_comm.append_left _)

/-! ## Parameters and superclasses -/

theorem meets_parameterList : ∀ (fuel count : Nat) (r : Reader),
    Meets P (parameterList fuel count) r (fuel < r.need 1) fun params r' =>
      r'.tokens.length < r.tokens.length ∧ ∀ p ∈ params, P p
  | 0, _, _ => .exhausted (Nat.lt_of_lt_of_le Nat.zero_lt_one (Nat.le_add_left ..))
  | fuel + 1, count, r => by
    rw [parameterList]
    refine .first (meets_checkCount _ _) fun _ r₁ h₁ _ => ?_
    refine .first (meets_expectName _) fun param r₂ h₂ ⟨hs, hn⟩ => ?_
    refine .first (meets_accept _) fun found r₃ h₃ _ => ?_
    have hlt : r₃.tokens.length < r.tokens.length :=
      Nat.lt_of_le_of_lt h₃.length_le (Nat.lt_of_lt_of_le hs h₁.length_le)
    refine .ite (fun _ => ?_) fun _ => .pure ⟨hlt, by simpa using hn⟩
    refine (meets_parameterList fuel (count + 1) r₃).bind (need_of_read hlt (by decide) · (Nat.le_refl _)) ?_
    intro rest r₄ _ h
    obtain ⟨hr, hps⟩ := h
    exact .pure ⟨Nat.lt_trans hr hlt, by simpa using ⟨hn, hps⟩⟩

theorem meets_parameters (fuel : Nat) (r : Reader) :
    Meets P (parameters fuel) r (fuel < r.need 1) fun params r' =>
      r'.tokens.length < r.tokens.length ∧ ∀ p ∈ params, P p := by
  refine (meets_unlessAt .rightParen (meets_parameterList fuel 0 r)).bind id fun params r₁ h₁ hps => ?_
  refine .first (meets_expectMark _ _) fun _ r₂ _ hs => .pure ⟨Nat.lt_of_lt_of_le hs h₁.length_le, ?_⟩
  cases params with
  | none => nofun
  | some ps => exact (hps ps rfl).2

theorem meets_superclass :
    Meets P superclass? r False fun superclass r' =>
      Spans r.nextId r'.nextId (superclass.map Reference.id).toList ∧ ∀ ref ∈ superclass, P ref.name := by
  refine .first (meets_accept _) fun found r₁ h₁ _ => .ite (fun _ => ?_) fun _ => .pure ⟨.nil h₁.ids, nofun⟩
  refine .first (meets_expectName _) fun name r₂ h₂ ⟨_, hn⟩ => .first meets_freshId fun id r₃ _ hi => .pure ?_
  exact ⟨hi.widenLeft (h₁.trans h₂).ids, by rintro _ ⟨⟩; exact hn⟩

end

end Parse

end Lox
