import Lox.Proofs.Grammar.Leading

/-!
# Simple statements

No rule for expressions reads a semicolon, unless it reads a block. So what is wrong in a statement of one line is found at
its semicolon at the latest, and recovery stops right behind it: what comes after the statement is read as if it stood alone.
-/

namespace Lox

/-! ## Up to the semicolon -/

namespace Reader

/-- One semicolon is left, at the end, and nothing before it opens a block or starts a statement. -/
structure Plain (r : Reader) : Prop where
  last : r.tokens.getLast?.map Token.kind = some (.mark .semicolon)
  inner : ∀ t ∈ r.tokens.dropLast, t.kind ≠ .mark .semicolon
  unbraced : ∀ t ∈ r.tokens, t.kind ≠ .mark .leftBrace
  starts : ∀ t ∈ r.tokens, t.kind.startsStatement = false

variable {r : Reader}

theorem Plain.ahead (h : r.Plain) : r.Ahead := fun ht => by
  have hlast := h.last
  rw [ht] at hlast
  cases hlast

theorem Plain.kind_ne (h : r.Plain) {kind : Token.Kind} (hk : kind = .mark .leftBrace ∨ kind.startsStatement = true) :
    r.kind? ≠ some kind := by
  intro hr
  obtain ⟨t, ht, rfl⟩ := Option.map_eq_some_iff.mp hr
  have hmem := List.mem_of_mem_head? ht
  obtain hk | hk := hk
  · exact h.unbraced t hmem hk
  · exact absurd hk (by simp [h.starts t hmem])

/-- Where another token comes next, it is not the last one. -/
theorem Plain.skip (h : r.Plain) (hk : r.kind? ≠ some (.mark .semicolon)) : r.skip.Plain := by
  obtain ⟨tokens, endLine, nextId, errors⟩ := r
  match tokens, h, hk with
  | [], h, _ => exact absurd rfl h.ahead
  | [t], h, hk => exact absurd h.last hk
  | t :: u :: ts, h, _ =>
    exact ⟨h.last, fun v hv => h.inner v (.tail _ hv), fun v hv => h.unbraced v (.tail _ hv), fun v hv => h.starts v (.tail _ hv)⟩

/-- The semicolon is the last token. -/
theorem Plain.skip_semicolon (h : r.Plain) (hk : r.kind? = some (.mark .semicolon)) : r.skip.tokens = [] := by
  obtain ⟨tokens, endLine, nextId, errors⟩ := r
  match tokens, h, hk with
  | [t], _, _ => rfl
  | t :: u :: ts, h, hk => exact absurd (Option.some.inj hk) (h.inner t List.mem_cons_self)

theorem skipStatement_plain : ∀ {last : Token} {ts : List Token}, (∀ t ∈ (last :: ts).dropLast, t.kind ≠ .mark .semicolon) →
    (∀ t ∈ ts, t.kind.startsStatement = false) → skipStatement last ts = []
  | _, [], _, _ => rfl
  | last, t :: ts, hinner, hstarts => by
    rw [List.dropLast_cons_cons, List.forall_mem_cons] at hinner
    obtain ⟨ht, hts⟩ := List.forall_mem_cons.mp hstarts
    rw [skipStatement, if_neg hinner.1, if_neg (by simp [ht])]
    exact skipStatement_plain hinner.2 hts

/-- Recovery skips what is left, and the semicolon. -/
theorem Plain.synchronize (h : r.Plain) : synchronize r.tokens = [] := by
  obtain ⟨tokens, endLine, nextId, errors⟩ := r
  match tokens, h with
  | t :: ts, h => exact skipStatement_plain h.inner fun u hu => h.starts u (.tail _ hu)

end Reader

/-- Before the semicolon the rule stays before it. -/
def Stays {α : Type} (rule : Parse α) (r : Reader) : Prop := r.Plain → ∀ r', (rule r).EndsIn r' → r'.Plain

section
variable {α β : Type} {r : Reader}

namespace Stays

theorem of_done {rule : Parse α} {a : α} {r₁ : Reader} (ho : rule r = .done a r₁) (h : r.Plain → r₁.Plain) : Stays rule r := by
  intro hr r' he
  rw [ho] at he
  obtain rfl : r' = r₁ := he
  exact h hr

theorem of_failed {rule : Parse α} {e : Error} (ho : rule r = .failed e r) : Stays rule r := by
  intro hr r' he
  rw [ho] at he
  obtain rfl : r' = r := he
  exact hr

theorem bind {rule : Parse α} {next : α → Parse β} (h : Stays rule r)
    (hn : ∀ a r₁, rule r = .done a r₁ → Stays (next a) r₁) : Stays (rule >>= next) r := by
  intro hr r' he
  have h := h hr
  rw [Run.bind_apply] at he
  cases ho : rule r with
  | exhausted => rw [ho] at he; exact he.elim
  | failed e r₁ => rw [ho] at he h; exact h r' he
  | done a r₁ =>
    rw [ho] at he h
    exact hn a r₁ ho (h r₁ rfl) r' he

theorem pure (a : α) : Stays (Pure.pure a : Parse α) r := .of_done rfl id

theorem exhausted : Stays (Run.exhausted : Parse α) r := fun _ _ he => he.elim

theorem fail (fault : SyntaxFault) : Stays (Parse.fail fault : Parse α) r := .of_failed rfl

theorem ite {c : Prop} [Decidable c] {yes no : Parse α} (hy : c → Stays yes r) (hn : ¬ c → Stays no r) :
    Stays (if c then yes else no) r := by
  split
  · exact hy ‹_›
  · exact hn ‹_›

end Stays

namespace Parse

open Reader

/-! ## Single tokens -/

theorem stays_read (g : Reader → α) : Stays (Run.read g) r := .of_done rfl id

theorem stays_skip {kind : Token.Kind} (hk : r.kind? = some kind) (h : kind ≠ .mark .semicolon) : Stays skip r :=
  .of_done rfl fun hr => hr.skip (by simpa [hk] using h)

theorem stays_accept {kind : Token.Kind} (h : kind ≠ .mark .semicolon) : Stays (accept kind) r := by
  by_cases hk : r.kind? = some kind
  · exact .of_done (if_pos hk) fun hr => hr.skip (by simpa [hk] using h)
  · exact .of_done (if_neg hk) id

theorem stays_expectMark {m : Mark} (h : m ≠ .semicolon) (place : Place) : Stays (expectMark m place) r := by
  by_cases hk : r.kind? = some (.mark m)
  · exact .of_done (if_pos hk) fun hr => hr.skip (by simpa [hk] using h)
  · exact .of_failed (if_neg hk)

theorem stays_expectName (fault : SyntaxFault) : Stays (expectName fault) r := by
  unfold expectName
  intro hr r' he
  dsimp only at he
  split at he
  · rename_i text hk
    obtain rfl : r' = r.skip := he
    exact hr.skip (by simp [hk])
  · obtain rfl : r' = r := he
    exact hr

theorem stays_freshId : Stays freshId r := .of_done rfl fun h => ⟨h.last, h.inner, h.unbraced, h.starts⟩

theorem stays_reread (e : Expr) : Stays (reread e) r := .of_done rfl fun h => ⟨h.last, h.inner, h.unbraced, h.starts⟩

theorem stays_reportAt (site : Site) (fault : SyntaxFault) : Stays (reportAt site fault) r :=
  .of_done rfl fun h => ⟨h.last, h.inner, h.unbraced, h.starts⟩

theorem stays_checkCount (count : Nat) (fault : SyntaxFault) : Stays (checkCount count fault) r :=
  .ite (fun _ => .of_done rfl fun h => ⟨h.last, h.inner, h.unbraced, h.starts⟩) fun _ => .pure ()

/-! ## Parts of expressions -/

theorem stays_acceptForm {γ : Type} {ofMark? : Mark → Option γ} (h : ofMark? .semicolon = none) : Stays (acceptForm ofMark?) r := by
  refine .bind (stays_read _) fun site _ hr => .bind (stays_read _) fun kind _ hr' => ?_
  cases hr
  cases hr'
  split
  · rename_i m hk
    split
    · rename_i form hm
      refine .bind (stays_skip hk fun hs => ?_) fun _ _ _ => .pure _
      cases hs
      rw [h] at hm
      cases hm
    · exact .pure _
  · exact .pure _

theorem stays_acceptConnective (level : Nat) : Stays (acceptConnective level) r := by
  refine .bind (stays_read _) fun line _ hr => .bind (stays_read _) fun kind _ hr' => ?_
  cases hr
  cases hr'
  cases hk : r.kind? with
  | none => exact .pure _
  | some kind =>
    dsimp only [Option.bind_some]
    cases hc : Connective.at? level kind with
    | none => exact .pure _
    | some c =>
      refine .bind (stays_skip hk fun hs => ?_) fun _ _ _ => .pure _
      rw [hs] at hc
      cases hc

theorem stays_assignTo (target value : Expr) (site : Site) (fault : SyntaxFault) :
    Stays (assignTo target value site fault) r := by
  cases target with
  | var id name => exact .bind stays_freshId fun _ _ _ => .pure _
  | get object name => exact .pure _
  | _ => exact .bind (stays_reportAt _ _) fun _ _ _ => .pure _

theorem stays_updateBy (op : Mark) (target operand : Expr) (site : Site) (fault : SyntaxFault) :
    Stays (updateBy op target operand site fault) r :=
  .bind (stays_reread target) fun _ _ _ => stays_assignTo _ _ _ _

theorem stays_unlessAt {rule : Parse α} (m : Mark) (h : ∀ r, Stays rule r) : Stays (unlessAt m rule) r :=
  .bind (.bind (stays_read _) fun _ _ _ => .pure _) fun _ r₁ _ => .ite (fun _ => .pure _) fun _ =>
    .bind (h r₁) fun _ _ _ => .pure _

theorem stays_ifAccepted {rule : Parse α} {kind : Token.Kind} (hk : kind ≠ .mark .semicolon) (h : ∀ r, Stays rule r) :
    Stays (ifAccepted kind rule) r :=
  .bind (stays_accept hk) fun _ r₁ _ => .ite (fun _ => .bind (h r₁) fun _ _ _ => .pure _) fun _ => .pure _

theorem stays_atom : Stays atom? r := by
  refine .bind (stays_read _) fun line _ hr => .bind (stays_read _) fun kind _ hr' => ?_
  cases hr
  cases hr'
  split
  case h_9 => exact .pure _
  all_goals rename_i hk
  case h_6 | h_8 => exact .bind (stays_skip hk nofun) fun _ _ _ => .bind stays_freshId fun _ _ _ => .pure _
  case h_7 =>
    refine .bind (stays_skip hk nofun) fun _ _ _ => .bind (stays_expectMark (m := .dot) nofun _) fun _ _ _ => ?_
    exact .bind (stays_expectName _) fun _ _ _ => .bind stays_freshId fun _ _ _ => .pure _
  all_goals exact .bind (stays_skip hk nofun) fun _ _ _ => .pure _

/-! ## Expressions -/

structure Staying (fuel : Nat) : Prop where
  expression : ∀ r, Stays (expression fuel) r
  operand : ∀ level r, Stays (operand fuel level) r
  operatorChain : ∀ level left r, Stays (operatorChain fuel level left) r
  unary : ∀ r, Stays (unary fuel) r
  suffixes : ∀ head r, Stays (suffixes fuel head) r
  argumentList : ∀ count r, Stays (argumentList fuel count) r
  primary : ∀ r, Stays (primary fuel) r

namespace Staying

theorem zero : Staying 0 := by
  constructor
  all_goals intros; exact .exhausted

section
variable {fuel : Nat} (h : Staying fuel) (r : Reader)
include h

theorem expression_succ : Stays (Parse.expression (fuel + 1)) r := by
  rw [Parse.expression, acceptAssignment_eq]
  refine .bind (h.operand 0 r) fun target r₁ _ => .bind (stays_acceptForm rfl) fun found r₂ _ => ?_
  rcases found with _ | ⟨_ | op, site⟩
  · exact .pure _
  · exact .bind (h.expression r₂) fun value _ _ => stays_assignTo _ _ _ _
  · exact .bind (h.expression r₂) fun value _ _ => stays_updateBy _ _ _ _ _

theorem operand_succ (level : Nat) : Stays (Parse.operand (fuel + 1) level) r := by
  rw [Parse.operand]
  exact .ite (fun _ => .bind (h.operand (level + 1) r) fun left r₁ _ => h.operatorChain level left r₁) fun _ => h.unary r

theorem operatorChain_succ (level : Nat) (left : Expr) : Stays (Parse.operatorChain (fuel + 1) level left) r := by
  rw [Parse.operatorChain]
  refine .bind (stays_acceptConnective level) fun found r₁ _ => ?_
  rcases found with _ | ⟨c, line⟩
  · exact .pure _
  · exact .bind (h.operand (level + 1) r₁) fun right r₂ _ => h.operatorChain level _ r₂

theorem unary_succ : Stays (Parse.unary (fuel + 1)) r := by
  rw [Parse.unary, acceptLeading_eq]
  refine .bind (stays_acceptForm rfl) fun found r₁ _ => ?_
  rcases found with _ | ⟨op | op, site⟩
  · exact .bind (h.primary r₁) fun head r₂ _ => h.suffixes head r₂
  · exact .bind (h.unary r₁) fun e _ _ => .pure _
  · exact .bind (h.unary r₁) fun target _ _ => stays_updateBy _ _ _ _ _

theorem suffixes_succ (head : Expr) : Stays (Parse.suffixes (fuel + 1) head) r := by
  rw [Parse.suffixes]
  refine .bind (stays_accept (by decide)) fun _ r₁ _ => .ite (fun _ => ?_) fun _ => ?_
  · refine .bind (stays_unlessAt _ (h.argumentList 0)) fun arguments _ _ => ?_
    exact .bind (stays_expectMark (m := .rightParen) (by decide) _) fun line r₃ _ => h.suffixes _ r₃
  · refine .bind (stays_accept (by decide)) fun _ r₂ _ => .ite (fun _ => ?_) fun _ => .pure _
    exact .bind (stays_expectName _) fun name r₃ _ => h.suffixes _ r₃

theorem argumentList_succ (count : Nat) : Stays (Parse.argumentList (fuel + 1) count) r := by
  rw [Parse.argumentList]
  refine .bind (stays_checkCount _ _) fun _ r₁ _ => .bind (h.expression r₁) fun e _ _ => ?_
  refine .bind (stays_accept (by decide)) fun _ r₃ _ => .ite (fun _ => ?_) fun _ => .pure _
  exact .bind (h.argumentList (count + 1) r₃) fun es _ _ => .pure _

/-- No lambda starts before the semicolon. -/
theorem primary_succ : Stays (Parse.primary (fuel + 1)) r := by
  rw [Parse.primary]
  refine .bind stays_atom fun found r₁ _ => ?_
  cases found with
  | some e => exact .pure _
  | none =>
    refine .bind (stays_read _) fun line _ _ => .bind (stays_accept (by decide)) fun _ r₂ _ => ?_
    refine .ite (fun _ => ?_) fun _ hr => ?_
    · refine .bind (h.expression r₂) fun inner _ _ => ?_
      exact .bind (stays_expectMark (m := .rightParen) (by decide) _) fun _ _ _ => .pure _
    · rw [acceptKeyword, choice_of_ne (hr.kind_ne (.inr rfl))]
      exact Stays.fail _ hr

end

end Staying

theorem staying : ∀ fuel, Staying fuel
  | 0 => .zero
  | fuel + 1 =>
    have h := staying fuel
    { expression := h.expression_succ
      operand := fun level r => h.operand_succ r level
      operatorChain := fun level left r => h.operatorChain_succ r level left
      unary := h.unary_succ
      suffixes := fun head r => h.suffixes_succ r head
      argumentList := fun count r => h.argumentList_succ r count
      primary := h.primary_succ }

/-! ## Statements -/

/-- The semicolon was read, or an error was found before it. -/
def Ended : Outcome Reader Error α → Prop
  | .done _ r' => r'.tokens = []
  | .failed _ r' => r'.Plain
  | .exhausted => True

/-- Before the semicolon the rule reads up to it, and the semicolon, or fails before it. -/
def Closes (rule : Parse α) (r : Reader) : Prop := r.Plain → Ended (rule r)

theorem Ended.choice {kind : Token.Kind} {yes no : Parse α} (hy : r.kind? = some kind → Ended (yes r.skip))
    (hn : r.kind? ≠ some kind → Ended (no r)) : Ended ((do if ← accept kind then yes else no : Parse α) r) := by
  by_cases hk : r.kind? = some kind
  · rw [choice_of_eq hk]
    exact hy hk
  · rw [choice_of_ne hk]
    exact hn hk

theorem Closes.bind {rule : Parse α} {next : α → Parse β} (h : Stays rule r)
    (hn : ∀ a r₁, rule r = .done a r₁ → Closes (next a) r₁) : Closes (rule >>= next) r := by
  intro hr
  have h := h hr
  rw [Run.bind_apply]
  cases ho : rule r with
  | exhausted => trivial
  | failed e r₁ => rw [ho] at h; exact h r₁ rfl
  | done a r₁ => rw [ho] at h; exact hn a r₁ ho (h r₁ rfl)

theorem closes_semicolon (place : Place) (b : α) : Closes (do let _ ← expectMark .semicolon place; return b) r := by
  intro hr
  by_cases hk : r.kind? = some (.mark .semicolon)
  · rw [Run.bind_of_done (show expectMark .semicolon place r = .done r.line r.skip from if_pos hk)]
    exact hr.skip_semicolon hk
  · rw [Run.bind_apply, show expectMark .semicolon place r = _ from if_neg hk]
    exact hr

theorem closes_expressionStatement (fuel : Nat) : Closes (expressionStatement fuel) r := by
  cases fuel with
  | zero => exact fun _ => trivial
  | succ fuel =>
    rw [expressionStatement]
    exact .bind ((staying fuel).expression r) fun e r₁ _ => closes_semicolon _ _

theorem closes_varDeclaration (fuel : Nat) : Closes (varDeclaration fuel) r := by
  cases fuel with
  | zero => exact fun _ => trivial
  | succ fuel =>
    rw [varDeclaration]
    refine .bind (stays_expectName _) fun name _ _ => ?_
    refine .bind (stays_ifAccepted (by decide) (staying fuel).expression) fun init _ _ => ?_
    exact closes_semicolon _ _

end Parse

/-- The first statement is a simple one, with nothing after it: plain, but for a word that it may start with. -/
def Reader.Simple (r : Reader) : Prop :=
  r.Plain ∨ r.skip.Plain ∧ (r.kind? = some (.keyword .var) ∨ r.kind? = some (.keyword .print) ∨ r.kind? = some (.keyword .return))

theorem Reader.Simple.ahead {r : Reader} (h : r.Simple) : r.Ahead := by
  obtain h | ⟨-, h | h | h⟩ := h
  · exact h.ahead
  all_goals exact ahead_of_kind h

theorem Reader.Simple.last {r : Reader} (h : r.Simple) : r.tokens.getLast?.map Token.kind = some (.mark .semicolon) := by
  obtain h | ⟨h, -⟩ := h
  · exact h.last
  · obtain ⟨tokens, endLine, nextId, errors⟩ := r
    match tokens, h.last with
    | _ :: u :: ts, h => exact h

theorem Reader.Simple.plain_skip {r : Reader} (h : r.Simple) {kind : Token.Kind} (hk : r.kind? = some kind)
    (hne : kind ≠ .mark .semicolon) : r.skip.Plain := by
  obtain h | h := h
  · exact h.skip (by simpa [hk] using hne)
  · exact h.1

namespace Parse

open Reader

/-- What a declaration is without its recovery, where no class and no function starts. -/
theorem declaration_of_ne {r : Reader} (hclass : r.kind? ≠ some (.keyword .klass)) (hfun : r.kind? ≠ some (.keyword .fun))
    (fuel : Nat) : declaration (fuel + 1) r =
      recover (do if ← acceptKeyword .var then varDeclaration fuel else statement fuel) r := by
  rw [declaration, recover, recover, acceptKeyword, choice_of_ne hclass, Run.bind_of_done (atFunctionDeclaration_of_ne hfun)]
  rfl

section
variable {r : Reader} (h : r.Simple)
include h

theorem kind?_ne_of_simple {kind : Token.Kind} (hk : kind = .mark .leftBrace ∨ kind.startsStatement = true)
    (hfirst : kind ≠ .keyword .var ∧ kind ≠ .keyword .print ∧ kind ≠ .keyword .return) : r.kind? ≠ some kind := by
  obtain h | ⟨-, h⟩ := h
  · exact h.kind_ne hk
  · intro hr
    simp only [hr, Option.some.injEq] at h
    obtain h | h | h := h
    · exact hfirst.1 h
    · exact hfirst.2.1 h
    · exact hfirst.2.2 h

/-- A simple statement is read up to its semicolon, or has an error before it. -/
theorem ended_simple (fuel : Nat) :
    Ended ((do if ← acceptKeyword .var then varDeclaration fuel else statement fuel : Parse Stmt) r) := by
  refine .choice (fun hk => closes_varDeclaration fuel (h.plain_skip hk (by decide))) fun hvar => ?_
  cases fuel with
  | zero => trivial
  | succ fuel =>
    have absent : ∀ {kind : Token.Kind}, (kind = .mark .leftBrace ∨ kind.startsStatement = true) →
        (kind ≠ .keyword .var ∧ kind ≠ .keyword .print ∧ kind ≠ .keyword .return) → ∀ {p : Prop}, r.kind? = some kind → p :=
      fun hk hfirst _ hr => absurd hr (kind?_ne_of_simple h hk hfirst)
    have he := (staying fuel).expression
    rw [statement]
    refine .choice (absent (.inr rfl) (by decide)) fun _ => .choice (absent (.inr rfl) (by decide)) fun _ => ?_
    refine .choice (absent (.inr rfl) (by decide)) fun _ => .choice (fun hk => ?_) fun hreturn => ?_
    · exact Closes.bind (stays_unlessAt _ he) (fun _ _ _ => closes_semicolon _ _) (h.plain_skip hk (by decide))
    refine .choice (fun hk => closes_semicolon _ _ (h.plain_skip hk (by decide))) fun _ => ?_
    refine .choice (absent (.inl rfl) (by decide)) fun _ => .choice (fun hk => ?_) fun hprint => ?_
    · exact Closes.bind (he _) (fun _ _ _ => closes_semicolon _ _) (h.plain_skip hk (by decide))
    · obtain h | ⟨-, h | h | h⟩ := h
      · exact closes_expressionStatement fuel h
      · exact absurd h hvar
      · exact absurd h hprint
      · exact absurd h hreturn

theorem overlooks_simple (x : Sequel) (fuel : Nat) : Overlooks x Overlooks.Closed
    (do if ← acceptKeyword .var then varDeclaration fuel else statement fuel) r := by
  refine overlooks_choice (.inl h.ahead) (fun _ => (overlooking x fuel).varDeclaration _) fun _ => ?_
  refine ((overlooking x fuel).statement r).weaken fun r' _ hnests => ?_
  obtain hk | hk | hk := hnests <;> exact absurd hk (kind?_ne_of_simple h (.inr rfl) (by decide))

/-- A simple statement ends behind its semicolon, with an error in it or without, and so it does where more follows. -/
theorem declaration_of_simple {fuel : Nat} {st : Option Stmt} {r' : Reader} (hd : declaration fuel r = .done st r') :
    r'.tokens = [] ∧ ∀ x : Sequel, declaration fuel (x.reader r) = .done st (x.reader r') := by
  cases fuel with
  | zero => cases hd
  | succ fuel =>
    have hclass : r.kind? ≠ some (.keyword .klass) := kind?_ne_of_simple h (.inr rfl) (by decide)
    have hfun : r.kind? ≠ some (.keyword .fun) := kind?_ne_of_simple h (.inr rfl) (by decide)
    have hended := ended_simple h fuel
    rw [declaration_of_ne hclass hfun] at hd
    refine ⟨?_, fun x => ?_⟩
    · unfold recover at hd
      split at hd
      · rename_i ho
        rw [ho] at hended
        cases hd
        exact hended
      · rename_i ho
        rw [ho] at hended
        cases hd
        exact hended.synchronize
      · cases hd
    · have hx : x.Hidden r := .inl h.ahead
      rw [declaration_of_ne (by rwa [Sequel.kind?_reader hx]) (by rwa [Sequel.kind?_reader hx])]
      refine ((overlooks_recover (overlooks_simple h x fuel) fun e r₁ ho _ => ?_).done (.inr ?_) hd).2 trivial |>.1
      · rw [ho] at hended
        exact ⟨.inl hended.ahead, synchronize_append (.inr hended.last)⟩
      · rw [h.last]
        nofun

end

end Parse

end

/-! ## Texts that start with a simple statement -/

/-- A statement of its own, as far as its tokens tell: one semicolon, which is the last token, no braces, and no word that starts
a statement, but in front one that starts a statement without others in it. -/
@[mk_iff]
structure IsSimple (s : List Token) : Prop where
  last : s.getLast?.map Token.kind = some (.mark .semicolon)
  inner : ∀ t ∈ s.dropLast, t.kind ≠ .mark .semicolon
  unbraced : ∀ t ∈ s, t.kind ≠ .mark .leftBrace ∧ t.kind ≠ .mark .rightBrace
  notEof : ∀ t ∈ s, t.kind ≠ .eof
  first : ∀ t ∈ s.head?, t.kind.startsStatement = true →
    t.kind = .keyword .var ∨ t.kind = .keyword .print ∨ t.kind = .keyword .return
  starts : ∀ t ∈ s.tail, t.kind.startsStatement = false

instance (s : List Token) : Decidable (IsSimple s) := decidable_of_iff _ (isSimple_iff s).symm

namespace IsSimple

variable {s : List Token}

theorem ne_nil (h : IsSimple s) : s ≠ [] := by
  rintro rfl
  cases h.last

theorem reader (h : IsSimple s) (nextId : NodeId) : (Reader.ofTokens s nextId).Simple := by
  have htokens := Reader.ofTokens_tokens_of_notEof h.notEof nextId
  obtain ⟨t, ts, rfl⟩ := List.exists_cons_of_ne_nil h.ne_nil
  by_cases ht : t.kind.startsStatement = true
  · have hfirst := h.first t rfl ht
    refine .inr ⟨⟨?_, ?_, ?_, ?_⟩, by simpa [Reader.kind?, htokens] using hfirst⟩
    all_goals simp only [Reader.skip, htokens, List.drop_succ_cons, List.drop_zero]
    · cases ts with
      | nil =>
        have hlast : t.kind = .mark .semicolon := Option.some.inj h.last
        rw [hlast] at ht
        cases ht
      | cons u us => exact h.last
    · cases ts with
      | nil => intro v hv; cases hv
      | cons u us => exact fun v hv => h.inner v (.tail _ hv)
    · exact fun u hu => (h.unbraced u (.tail _ hu)).1
    · exact h.starts
  · refine .inl ⟨?_, ?_, ?_, ?_⟩
    all_goals rw [htokens]
    · exact h.last
    · exact h.inner
    · exact fun u hu => (h.unbraced u hu).1
    · exact List.forall_mem_cons.mpr ⟨Bool.not_eq_true _ ▸ ht, h.starts⟩

open Parse in
/-- A simple statement is one declaration, and the same one whatever comes after it. -/
theorem declaration (h : IsSimple s) (nextId : NodeId) : ∃ first r₁, r₁.tokens = [] ∧
    ∀ x : Sequel, declaration (grammarFuel s) (x.reader (Reader.ofTokens s nextId)) = .done first (x.reader r₁) := by
  have hr : (Reader.ofTokens s nextId).Simple := h.reader nextId
  obtain ⟨tree, r', hp⟩ := program_done s nextId (Nat.le_succ (grammarFuel s))
  obtain ⟨ht, -, -⟩ | ⟨first, r₁, -, -, hd, -, -⟩ := program_cases hp
  · exact absurd ht hr.ahead
  · exact ⟨first, r₁, declaration_of_simple hr hd⟩

end IsSimple

/-- What is wrong in a simple statement is reported before what comes after it, which is read as if it stood alone. -/
theorem simple_statement_is_contained {s : List Token} (h : IsSimple s) (rest : List Token) (nextId : NodeId) :
    parseProgram (s ++ rest) nextId =
      { tree := (parseProgram s nextId).tree ++ recodedStmts (.shift (parseProgram s nextId).nextId) (parseProgram rest 0).tree
        errors := (parseProgram s nextId).errors ++ (parseProgram rest 0).errors
        nextId := (parseProgram rest 0).nextId + (parseProgram s nextId).nextId } := by
  obtain ⟨first, r₁, ht, hd⟩ := h.declaration nextId
  rw [parseProgram_append h.notEof h.ne_nil hd, parseProgram_of_first h.notEof h.ne_nil hd ht, ht, List.nil_append]

/-- `1 + ; print 2;` -/
theorem simple_statement_is_contained_of_sum :
    let s : List Token := [⟨.number "1" 1, 1⟩, ⟨.mark .plus, 1⟩, ⟨.mark .semicolon, 1⟩]
    let rest : List Token := [⟨.keyword .print, 1⟩, ⟨.number "2" 2, 1⟩, ⟨.mark .semicolon, 1⟩]
    IsSimple s ∧ (parseProgram (s ++ rest) 0).errors = (parseProgram s 0).errors ++ (parseProgram rest 0).errors ∧
      (parseProgram s 0).errors ≠ [] ∧ (parseProgram rest 0).tree ≠ [] := by
  intro s rest
  have h : IsSimple s := by decide
  exact ⟨h, congrArg Parsed.errors (simple_statement_is_contained h rest 0), by decide +kernel, by decide +kernel⟩

end Lox
