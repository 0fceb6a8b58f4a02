import Lox.Proofs.Grammar.Statements
import Lox.Proofs.Source.Respaced
import Lox.Proofs.Syntax.Scanned

/-!
# Expressions read from tokens of a text

Where the tokens are those of a text, an expression has the names of the text in it, numbers without a sign, and operators for
operators. The one that a step adds or takes away is such a number, too.
-/

namespace Lox

/-- The names and numbers among the tokens are those of a text. -/
structure Reader.Fair (r : Reader) : Prop where
  names : r.Names Name.IsIdentifier
  numbers : ∀ t ∈ r.tokens, ∀ digits x, t.kind = .number digits x → Number.Unsigned x

theorem Reader.Fair.later {r r' : Reader} (h : r.Fair) (hl : r.Later r') : r'.Fair :=
  ⟨h.names.later hl, fun t ht => h.numbers t (hl.tokens.subset ht)⟩

theorem Connective.Proper.scanned {left right : Expr} (line : Nat) (hl : left.Scanned) (hr : right.Scanned) :
    ∀ {c : Connective}, c.Proper → (c.join line left right).Scanned
  | .logical _, _ => ⟨hl, hr⟩
  | .binary _, h => ⟨h, hl, hr⟩

theorem Number.read_one : read 1 = .finite false (2 ^ 52) (-52) := by decide +kernel

theorem Number.unsigned_one : Unsigned 1 := .inl ⟨_, _, read_one⟩

namespace Parse

/-- Among fair tokens the rule gives such a result. -/
abbrev Gives {α : Type} (rule : Parse α) (r : Reader) (Q : α → Prop) : Prop :=
  Meets Name.IsIdentifier rule r True fun a _ => Q a

section
variable {α β : Type} {r : Reader}

theorem Gives.andThen {rule : Parse α} {next : α → Parse β} {Q : α → Prop} {T : β → Prop} (hr : r.Fair) (h : Gives rule r Q)
    (hn : ∀ a r', r'.Fair → Q a → Gives (next a) r' T) : Gives (rule >>= next) r T :=
  h.bind id fun a r' hl ha => hn a r' (hr.later hl) ha

theorem Gives.first {rule : Parse α} {next : α → Parse β} {dry : Prop} {R : α → Reader → Prop} {T : β → Prop} (hr : r.Fair)
    (h : Meets Name.IsIdentifier rule r dry R) (hn : ∀ a r', r'.Fair → R a r' → Gives (next a) r' T) :
    Gives (rule >>= next) r T :=
  h.bind (fun _ => trivial) fun a r' hl ha => hn a r' (hr.later hl) ha

end

section
variable {r : Reader} (hr : r.Fair)
include hr

theorem gives_atom : Gives atom? r fun found => ∀ e ∈ found, e.Scanned := by
  refine .first hr meets_line fun line r₁ hr₁ _ => .first hr₁ meets_kind fun kind r₂ hr₂ hk => ?_
  obtain ⟨rfl, rfl⟩ := hk
  split
  case h_1 hk | h_2 hk | h_3 hk | h_5 hk =>
    exact .first hr₂ (meets_skip hk) fun _ _ _ _ => .pure (by rintro _ ⟨⟩; trivial)
  case h_4 digits x hk =>
    obtain ⟨t, ht, hkind⟩ := Option.map_eq_some_iff.mp hk
    have hx := hr₂.numbers t (List.mem_of_mem_head? ht) digits x hkind
    exact .first hr₂ (meets_skip hk) fun _ _ _ _ => .pure (by rintro _ ⟨⟩; exact hx)
  case h_6 hk =>
    refine .first hr₂ (meets_skip hk) fun _ r₃ hr₃ _ => .first hr₃ meets_freshId fun _ _ _ _ => .pure ?_
    rintro _ ⟨⟩
    trivial
  case h_7 hk =>
    refine .first hr₂ (meets_skip hk) fun _ r₃ hr₃ _ => .first hr₃ (meets_expectMark _ _) fun _ r₄ hr₄ _ => ?_
    refine .first hr₄ (meets_expectName _) fun name r₅ hr₅ hn => .first hr₅ meets_freshId fun _ _ _ _ => .pure ?_
    rintro _ ⟨⟩
    exact hn.2
  case h_8 text hk =>
    have hn := hr₁.names.head hk
    refine .first hr₂ (meets_skip hk) fun _ r₃ hr₃ _ => .first hr₃ meets_freshId fun _ _ _ _ => .pure ?_
    rintro _ ⟨⟩
    exact hn
  case h_9 => exact .pure nofun

theorem gives_assignTo {target value : Expr} (ht : target.Scanned) (hv : value.Scanned) (site : Site) (fault : SyntaxFault) :
    Gives (assignTo target value site fault) r Expr.Scanned := by
  unfold assignTo
  split
  · exact .first hr meets_freshId fun _ _ _ _ => .pure ⟨ht, hv⟩
  · exact .pure ⟨ht.1, ht.2, hv⟩
  · exact .first hr (meets_reportAt site fault) fun _ _ _ _ => .pure ht

theorem gives_updateBy {op : Mark} {target operand : Expr} (hop : op.isBinary = true) (ht : target.Scanned)
    (ho : operand.Scanned) (site : Site) (fault : SyntaxFault) :
    Gives (updateBy op target operand site fault) r Expr.Scanned := by
  have hold : Gives (reread target) r Expr.Scanned :=
    .of_done rfl ⟨List.suffix_rfl, rfl, (target.fresh_spans _).le, List.prefix_rfl⟩ (ht.fresh _)
  refine hold.andThen hr fun old r' hr' hold => ?_
  have hv : (Expr.binary op site.line old operand).Scanned := ⟨hop, hold, ho⟩
  exact gives_assignTo hr' ht hv site fault

end

/-! ## The rules of expressions -/

/-- Every rule with this fuel. -/
structure Giving (fuel : Nat) : Prop where
  expression : ∀ r : Reader, r.Fair → Gives (expression fuel) r Expr.Scanned
  operand : ∀ level (r : Reader), r.Fair → Gives (operand fuel level) r Expr.Scanned
  operatorChain : ∀ level left (r : Reader), r.Fair → left.Scanned → Gives (operatorChain fuel level left) r Expr.Scanned
  unary : ∀ r : Reader, r.Fair → Gives (unary fuel) r Expr.Scanned
  suffixes : ∀ head (r : Reader), r.Fair → head.Scanned → Gives (suffixes fuel head) r Expr.Scanned
  argumentList : ∀ count (r : Reader), r.Fair → Gives (argumentList fuel count) r AllScanned
  primary : ∀ r : Reader, r.Fair → Gives (primary fuel) r Expr.Scanned

namespace Giving

theorem zero : Giving 0 := by
  constructor
  all_goals intros; exact .exhausted trivial

section
variable {fuel : Nat} (h : Giving fuel)
include h

theorem expression_succ (r : Reader) (hr : r.Fair) : Gives (Parse.expression (fuel + 1)) r Expr.Scanned := by
  rw [Parse.expression]
  refine (h.operand 0 r hr).andThen hr fun target r₁ hr₁ ht => .first hr₁ meets_acceptAssignment fun found r₂ hr₂ hop => ?_
  split
  · exact .pure ht
  · exact (h.expression r₂ hr₂).andThen hr₂ fun value r₃ hr₃ hv => gives_assignTo hr₃ ht hv _ _
  · rename_i op site
    exact (h.expression r₂ hr₂).andThen hr₂ fun value r₃ hr₃ hv => gives_updateBy hr₃ (hop op site rfl) ht hv _ _

theorem operand_succ (level : Nat) (r : Reader) (hr : r.Fair) : Gives (Parse.operand (fuel + 1) level) r Expr.Scanned := by
  rw [Parse.operand]
  refine .ite (fun _ => ?_) fun _ => h.unary r hr
  exact (h.operand (level + 1) r hr).andThen hr fun left r₁ hr₁ hl => h.operatorChain level left r₁ hr₁ hl

theorem operatorChain_succ (level : Nat) (left : Expr) (r : Reader) (hr : r.Fair) (hl : left.Scanned) :
    Gives (Parse.operatorChain (fuel + 1) level left) r Expr.Scanned := by
  rw [Parse.operatorChain]
  refine .first hr (meets_acceptConnective level) fun found r₁ hr₁ hc => ?_
  split
  · exact .pure hl
  · rename_i c line
    refine (h.operand (level + 1) r₁ hr₁).andThen hr₁ fun right r₂ hr₂ hright => ?_
    exact h.operatorChain level _ r₂ hr₂ ((hc _ rfl).1.scanned line hl hright)

theorem unary_succ (r : Reader) (hr : r.Fair) : Gives (Parse.unary (fuel + 1)) r Expr.Scanned := by
  rw [Parse.unary]
  refine .first hr meets_acceptLeading fun found r₁ hr₁ hf => ?_
  split
  · exact (h.unary r₁ hr₁).andThen hr₁ fun e r₂ _ he => .pure ⟨(hf _ rfl).1, he⟩
  · refine (h.unary r₁ hr₁).andThen hr₁ fun target r₂ hr₂ ht => ?_
    have hone : (Expr.literal (.number 1)).Scanned := Number.unsigned_one
    exact gives_updateBy hr₂ (hf _ rfl).1 ht hone _ _
  · exact (h.primary r₁ hr₁).andThen hr₁ fun head r₂ hr₂ hh => h.suffixes head r₂ hr₂ hh

theorem suffixes_succ (head : Expr) (r : Reader) (hr : r.Fair) (hh : head.Scanned) :
    Gives (Parse.suffixes (fuel + 1) head) r Expr.Scanned := by
  rw [Parse.suffixes]
  refine .first hr (meets_accept _) fun found r₁ hr₁ _ => .ite (fun _ => ?_) fun _ => ?_
  · refine Gives.first hr₁ (meets_unlessAt .rightParen (h.argumentList 0 r₁ hr₁)) fun arguments r₂ hr₂ ha => ?_
    have ha : AllScanned (arguments.getD []) := by
      cases arguments with
      | none => trivial
      | some es => exact ha es rfl
    exact Gives.first hr₂ (meets_expectMark _ _) fun line r₃ hr₃ _ => h.suffixes _ r₃ hr₃ ⟨hh, ha⟩
  · refine Gives.first hr₁ (meets_accept _) fun found r₂ hr₂ _ => .ite (fun _ => ?_) fun _ => .pure hh
    exact Gives.first hr₂ (meets_expectName _) fun name r₃ hr₃ hn => h.suffixes _ r₃ hr₃ ⟨hh, hn.2⟩

theorem argumentList_succ (count : Nat) (r : Reader) (hr : r.Fair) :
    Gives (Parse.argumentList (fuel + 1) count) r AllScanned := by
  rw [Parse.argumentList]
  refine .first hr (meets_checkCount _ _) fun _ r₁ hr₁ _ => ?_
  refine (h.expression r₁ hr₁).andThen hr₁ fun e r₂ hr₂ he => .first hr₂ (meets_accept _) fun found r₃ hr₃ _ => ?_
  refine .ite (fun _ => ?_) fun _ => .pure ⟨he, trivial⟩
  exact (h.argumentList (count + 1) r₃ hr₃).andThen hr₃ fun es r₄ _ hes => .pure ⟨he, hes⟩

theorem primary_succ (r : Reader) (hr : r.Fair) : Gives (Parse.primary (fuel + 1)) r Expr.Scanned := by
  rw [Parse.primary]
  refine (gives_atom hr).andThen hr fun found r₁ hr₁ ha => ?_
  split
  · exact .pure (ha _ rfl)
  · refine .first hr₁ meets_line fun line r₂ hr₂ _ => .first hr₂ (meets_accept _) fun found r₃ hr₃ _ => ?_
    refine .ite (fun _ => ?_) fun _ => ?_
    · refine (h.expression r₃ hr₃).andThen hr₃ fun e r₄ hr₄ he => ?_
      exact Gives.first hr₄ (meets_expectMark _ _) fun _ r₅ _ _ => .pure he
    · refine Gives.first hr₃ (meets_accept _) fun found r₄ hr₄ _ => .ite (fun _ => ?_) fun _ => meets_fail _
      refine Gives.first hr₄ (meets_expectMark _ _) fun _ r₅ hr₅ _ => .first hr₅ (meets_parameters fuel r₅) fun params r₆ hr₆ _ => ?_
      exact Gives.first hr₆ ((rules _ fuel).routineBody false r₆) fun body r₇ _ _ => .pure trivial

end

end Giving

theorem giving : ∀ fuel, Giving fuel
  | 0 => .zero
  | fuel + 1 =>
    have h := giving fuel
    { expression := h.expression_succ
      operand := h.operand_succ
      operatorChain := h.operatorChain_succ
      unary := h.unary_succ
      suffixes := h.suffixes_succ
      argumentList := h.argumentList_succ
      primary := h.primary_succ }

end Parse

/-! ## Texts -/

theorem Lexeme.unsigned {text : List Char} {digits : String} {x : Float} (h : Lexeme text (.number digits x)) :
    Number.Unsigned x := by
  cases h with
  | integer => exact Number.unsigned_ofRatio _ _
  | decimal => exact Number.unsigned_ofRatio _ _

theorem fair_ofSource (source : String) (nextId : NodeId) : (Reader.ofTokens (tokensOf (Item.ofSource source)) nextId).Fair := by
  rw [ofTokens_ofSource]
  constructor
  · intro t ht text hk
    have h := lexeme_of_mem_tokensIn ht
    rw [hk] at h
    exact h
  · intro t ht digits x hk
    have h := lexeme_of_mem_tokensIn ht
    rw [hk] at h
    exact h.unsigned

/-- An expression that is read from a text. -/
theorem scanned_of_parseExpression {source : String} {nextId : NodeId} {e : Expr}
    (h : (parseExpression (tokensOf (Item.ofSource source)) nextId).tree = some e) : e.Scanned := by
  have hfair := fair_ofSource source nextId
  have hgives : Parse.Gives (Parse.wholeExpression (grammarFuel (tokensOf (Item.ofSource source))))
      (Reader.ofTokens (tokensOf (Item.ofSource source)) nextId) Expr.Scanned := by
    refine ((Parse.giving _).expression _ hfair).andThen hfair fun e r₁ hr₁ he => .first hr₁ Parse.meets_kind fun kind r₂ _ _ => ?_
    split
    · exact .pure he
    · exact Parse.meets_fail _
  have hdone := hgives hfair.names
  unfold parseExpression at h
  split at h
  · rename_i tree r hrun
    rw [hrun] at hdone
    cases h
    exact hdone.2
  · cases h
  · cases h

end Lox
