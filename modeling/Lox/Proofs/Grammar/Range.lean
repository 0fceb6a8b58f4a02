import Mathlib.Data.List.TakeWhile
import Lox.Proofs.Grammar.Joined
import Lox.Proofs.Grammar.Steady
import Lox.Proofs.Evaluation.Frames

/-!
# Where the parser stands among its tokens

A parser can count the tokens that it has read. Whatever it is asked to read, the count does not go down and does not pass the
first end of the input, and the parser comes to an end. Each declaration takes it further, also one with an error.
-/

namespace Lox

/-! ## Positions -/

/-- The tokens with an end of the input after them, unless they have it already. -/
def closed (tokens : List Token) : List Token :=
  if tokens.getLast?.map Token.kind = some .eof then tokens
  else tokens ++ [{ kind := .eof, line := (tokens.getLast?.map Token.line).getD 1 }]

/-- The position of the first end of the input. -/
def endIndex (tokens : List Token) : Nat := (closed tokens).findIdx (·.kind = .eof)

/-- The tokens are those that a reader starts with, the end of the input that it knows of, and what it never sees. -/
theorem closed_eq (tokens : List Token) (nextId : NodeId) : ∃ rest, closed tokens =
    (Reader.ofTokens tokens nextId).tokens ++ { kind := .eof, line := (Reader.ofTokens tokens nextId).endLine } :: rest := by
  unfold Reader.ofTokens
  cases hfind : tokens.find? (·.kind = .eof) with
  | some t =>
    obtain ⟨ht, before, after, rfl, hbefore⟩ := List.find?_eq_some_iff_append.mp hfind
    obtain ⟨kind, line⟩ := t
    obtain rfl : kind = .eof := of_decide_eq_true ht
    have hread : (before ++ ⟨.eof, line⟩ :: after).takeWhile (·.kind ≠ .eof) = before := by
      rw [List.takeWhile_append_of_pos (by simpa using hbefore), List.takeWhile_cons_of_neg (by simp), List.append_nil]
    unfold closed
    split
    · exact ⟨after, by rw [hread]⟩
    · exact ⟨after ++ [_], by rw [hread, List.append_assoc]; rfl⟩
  | none =>
    have hnone : ∀ t ∈ tokens, t.kind ≠ .eof := by simpa using hfind
    have hread : tokens.takeWhile (·.kind ≠ .eof) = tokens := List.takeWhile_eq_self_iff.mpr (by simpa using hnone)
    have hlast : tokens.getLast?.map Token.kind ≠ some .eof := fun h => by
      obtain ⟨t, ht, hk⟩ := Option.map_eq_some_iff.mp h
      exact hnone t (List.mem_of_getLast? ht) hk
    exact ⟨[], by rw [closed, if_neg hlast, hread]⟩

theorem ofTokens_kind {tokens : List Token} {nextId : NodeId} {t : Token} (ht : t ∈ (Reader.ofTokens tokens nextId).tokens) :
    t.kind ≠ .eof := by simpa using List.mem_takeWhile_imp ht

theorem endIndex_eq (tokens : List Token) (nextId : NodeId) :
    endIndex tokens = (Reader.ofTokens tokens nextId).tokens.length := by
  obtain ⟨rest, hclosed⟩ := closed_eq tokens nextId
  have hnone : ∀ t ∈ (Reader.ofTokens tokens nextId).tokens, ¬ t.kind = .eof := fun _ => ofTokens_kind
  rw [endIndex, hclosed, List.findIdx_append, if_neg (by simpa using hnone)]
  simp [List.findIdx_cons]

namespace Reader

/-- The reader is at the next of the tokens, and the end of the input that it knows of is the first one. -/
structure Within (tokens : List Token) (r : Reader) : Prop where
  left : r.tokens <:+ (ofTokens tokens r.nextId).tokens
  endLine : r.endLine = (ofTokens tokens r.nextId).endLine

/-- How many of the tokens have been read. -/
def cursor (tokens : List Token) (r : Reader) : Nat := endIndex tokens - r.tokens.length

/-- The token is the next one for the reader. -/
structure Sees (r : Reader) (t : Token) : Prop where
  kind : r.kind? = if t.kind = .eof then none else some t.kind
  line : r.line = t.line
  site : r.site = if t.kind = .eof then .endOfInput t.line else .lexeme t.lexeme t.line

variable {tokens : List Token} {r r' : Reader}

theorem within_ofTokens (tokens : List Token) (nextId : NodeId) : (ofTokens tokens nextId).Within tokens :=
  ⟨List.suffix_rfl, rfl⟩

theorem Within.later (h : r.Within tokens) (hl : r.Later r') : r'.Within tokens :=
  ⟨hl.tokens.trans h.left, hl.endLine.trans h.endLine⟩

theorem Within.length_le (h : r.Within tokens) : r.tokens.length ≤ endIndex tokens :=
  (endIndex_eq tokens r.nextId).symm ▸ h.left.length_le

theorem Later.cursor_le (h : r.Later r') : r.cursor tokens ≤ r'.cursor tokens := Nat.sub_le_sub_left h.length_le _

theorem Within.cursor_lt (h : r.Within tokens) (hlt : r'.tokens.length < r.tokens.length) :
    r.cursor tokens < r'.cursor tokens := by
  have := h.length_le
  unfold cursor
  omega

theorem Within.cursor_lt_end (h : r.Within tokens) : r.cursor tokens < endIndex tokens ↔ r.tokens ≠ [] := by
  have := h.length_le
  rw [← List.length_pos_iff, cursor]
  omega

theorem cursor_of_nil (h : r.tokens = []) : r.cursor tokens = endIndex tokens := by
  rw [cursor, h]
  rfl

/-- The token at the cursor exists, and it is what the reader looks at. -/
theorem Within.sees (h : r.Within tokens) : ∃ t, (closed tokens)[r.cursor tokens]? = some t ∧ r.Sees t := by
  obtain ⟨rest, hclosed⟩ := closed_eq tokens r.nextId
  obtain ⟨before, hbefore⟩ := h.left
  have hcursor : r.cursor tokens = before.length := by
    rw [cursor, endIndex_eq tokens r.nextId, ← hbefore, List.length_append]
    omega
  rw [hcursor, hclosed, ← hbefore, List.append_assoc, List.getElem?_append_right (Nat.le_refl _), Nat.sub_self]
  cases hts : r.tokens with
  | nil => exact ⟨_, rfl, by simp [kind?, hts], by simp [line, hts, h.endLine], by simp [site, hts, h.endLine]⟩
  | cons t ts =>
    have hk : t.kind ≠ .eof := ofTokens_kind (h.left.subset (hts ▸ List.mem_cons_self))
    exact ⟨t, rfl, by simp [kind?, hts, hk], by simp [line, hts], by simp [site, hts, hk]⟩

end Reader

/-! ## What a parser can be asked to read -/

/-- A token, or what a rule of the grammar reads. -/
inductive ParseTask where
  | skip
  | accept (kind : Token.Kind)
  | expectMark (m : Mark) (place : Place)
  | expectName (fault : SyntaxFault)
  | acceptAssignment
  | acceptConnective (level : Nat)
  | acceptLeading
  | atom
  | superclass
  | parameterList (count : Nat)
  | parameters
  | expression
  | operand (level : Nat)
  | operatorChain (level : Nat) (left : Expr)
  | unary
  | suffixes (head : Expr)
  | argumentList (count : Nat)
  | primary
  | routineBody (closed : Bool)
  | block
  | declarations
  | declaration
  | classDeclaration
  | members
  | method
  | varDeclaration
  | statement
  | expressionStatement
  | ifStatement
  | forStatement
  | forInitializer
  | program
  | wholeExpression

namespace ParseTask

def Result : ParseTask → Type
  | skip => Unit
  | accept _ => Bool
  | expectMark _ _ => Nat
  | expectName _ => Name
  | acceptAssignment => Option (Assignment × Site)
  | acceptConnective _ => Option (Connective × Nat)
  | acceptLeading => Option (Leading × Site)
  | atom => Option Expr
  | superclass => Option Reference
  | parameterList _ => List Name
  | parameters => List Name
  | expression => Expr
  | operand _ => Expr
  | operatorChain _ _ => Expr
  | unary => Expr
  | suffixes _ => Expr
  | argumentList _ => List Expr
  | primary => Expr
  | routineBody _ => List Stmt
  | block => List Stmt
  | declarations => List Stmt
  | declaration => Option Stmt
  | classDeclaration => Stmt
  | members => List Method × List Method
  | method => Method
  | varDeclaration => Stmt
  | statement => Stmt
  | expressionStatement => Stmt
  | ifStatement => Stmt
  | forStatement => Stmt
  | forInitializer => Option Stmt
  | program => List Stmt
  | wholeExpression => Expr

def run (fuel : Nat) : (task : ParseTask) → Parse task.Result
  | skip => Parse.skip
  | accept kind => Parse.accept kind
  | expectMark m place => Parse.expectMark m place
  | expectName fault => Parse.expectName fault
  | acceptAssignment => Parse.acceptAssignment
  | acceptConnective level => Parse.acceptConnective level
  | acceptLeading => Parse.acceptLeading
  | atom => Parse.atom?
  | superclass => Parse.superclass?
  | parameterList count => Parse.parameterList fuel count
  | parameters => Parse.parameters fuel
  | expression => Parse.expression fuel
  | operand level => Parse.operand fuel level
  | operatorChain level left => Parse.operatorChain fuel level left
  | unary => Parse.unary fuel
  | suffixes head => Parse.suffixes fuel head
  | argumentList count => Parse.argumentList fuel count
  | primary => Parse.primary fuel
  | routineBody closed => Parse.routineBody fuel closed
  | block => Parse.block fuel
  | declarations => Parse.declarations fuel
  | declaration => Parse.declaration fuel
  | classDeclaration => Parse.classDeclaration fuel
  | members => Parse.members fuel
  | method => Parse.method fuel
  | varDeclaration => Parse.varDeclaration fuel
  | statement => Parse.statement fuel
  | expressionStatement => Parse.expressionStatement fuel
  | ifStatement => Parse.ifStatement fuel
  | forStatement => Parse.forStatement fuel
  | forInitializer => Parse.forInitializer fuel
  | program => Parse.program fuel
  | wholeExpression => Parse.wholeExpression fuel

/-- How many rules deep the task can be when it reads its first token. -/
def rank : ParseTask → Nat
  | expression => 10
  | operand level => 3 + (Connective.levels - level)
  | unary => 2
  | argumentList _ => 11
  | block => 15
  | declarations => 14
  | declaration => 13
  | members => 2
  | statement => 12
  | expressionStatement => 11
  | forInitializer => 12
  | program => 14
  | wholeExpression => 10
  | _ => 1

open Parse Reader

/-- More fuel does not change what is read. -/
theorem steady {fuel fuel' : Nat} (h : fuel ≤ fuel') (task : ParseTask) : Steady (task.run fuel) (task.run fuel') := by
  have hs := steadies h
  cases task with
  | skip | accept | expectMark | expectName | acceptAssignment | acceptConnective | acceptLeading | atom | superclass =>
    exact .refl _
  | parameterList count => exact steady_parameterList h count
  | parameters => exact steady_parameters h
  | expression => exact hs.expression
  | operand level => exact hs.operand level
  | operatorChain level left => exact hs.operatorChain level left
  | unary => exact hs.unary
  | suffixes head => exact hs.suffixes head
  | argumentList count => exact hs.argumentList count
  | primary => exact hs.primary
  | routineBody closed => exact hs.routineBody closed
  | block => exact hs.block
  | declarations => exact hs.declarations
  | declaration => exact hs.declaration
  | classDeclaration => exact hs.classDeclaration
  | members => exact hs.members
  | method => exact hs.method
  | varDeclaration => exact hs.varDeclaration
  | statement => exact hs.statement
  | expressionStatement => exact hs.expressionStatement
  | ifStatement => exact hs.ifStatement
  | forStatement => exact hs.forStatement
  | forInitializer => exact hs.forInitializer
  | program => exact steady_program h
  | wholeExpression => exact steady_wholeExpression h

/-- Errors are found at once where nothing is left. -/
theorem declaration_at_end {fuel : Nat} {r : Reader} (h : r.tokens = []) :
    Parse.declaration (fuel + 1) r = recover (Parse.statement fuel) r := by
  have hk : ∀ kind, r.kind? ≠ some kind := fun kind => by simp [Reader.kind?, h]
  have hfun : atFunctionDeclaration r = .done false r := by simp [atFunctionDeclaration, h]
  rw [Parse.declaration]
  unfold recover
  simp only [acceptKeyword, choice_of_ne (hk _), Run.bind_of_done hfun, Bool.false_eq_true, if_false]

/-- After an error the reader is a later one as well. -/
theorem later_recover {α : Type} {rule : Parse α} {r : Reader} {dry : Prop} {Q : α → Reader → Prop}
    (h : Meets (fun _ => True) rule r dry Q) : Meets (fun _ => True) (recover rule) r dry fun _ _ => True := by
  intro hp
  have h := h hp
  unfold recover
  cases ho : rule r with
  | done a r' => rw [ho] at h; exact ⟨h.1, trivial⟩
  | exhausted => rw [ho] at h; exact h
  | failed e r' =>
    rw [ho] at h
    have hs : synchronize r'.tokens <:+ r'.tokens := (synchronize_suffix _).trans (List.tail_suffix _)
    exact ⟨⟨hs.trans h.tokens, h.endLine, h.ids, h.errors.trans (List.prefix_append ..)⟩, trivial⟩

theorem meets_declaration (fuel : Nat) (r : Reader) :
    Meets (fun _ => True) (Parse.declaration fuel) r (fuel < r.need 13) fun _ _ => True := by
  by_cases h : r.tokens = []
  · cases fuel with
    | zero => exact .exhausted (Nat.lt_of_lt_of_le (by decide : 0 < 13) (Nat.le_add_left ..))
    | succ fuel =>
      intro hp
      rw [declaration_at_end h]
      refine later_recover (((rules _ fuel).statement r).imp (fun hdry => ?_) fun _ _ _ hq => hq) hp
      exact need_of_lower (Nat.le_refl _) (by decide : 12 < 13) hdry
  · exact ((rules (fun _ => True) fuel).declaration r h).imp id fun _ _ _ _ => trivial

theorem meets_wholeExpression (fuel : Nat) (r : Reader) :
    Meets (fun _ => True) (Parse.wholeExpression fuel) r (fuel < r.need 10) fun _ _ => True := by
  refine ((rules _ fuel).expression r).bind id fun e r₁ _ _ => .first meets_kind fun kind r₂ _ _ => ?_
  cases kind with
  | none => exact .pure trivial
  | some kind => exact meets_fail _

/-- Whatever is read, a later reader is left, and fuel in proportion to the tokens is enough. -/
theorem meets (task : ParseTask) (fuel : Nat) (r : Reader) :
    Meets (fun _ => True) (task.run fuel) r (fuel < r.need task.rank) fun _ _ => True := by
  have hr := rules (fun _ => True) fuel
  cases task with
  | skip => exact .of_done rfl (.skip r) trivial
  | accept kind => exact (meets_accept kind).imp False.elim fun _ _ _ _ => trivial
  | expectMark m place => exact (meets_expectMark m place).imp False.elim fun _ _ _ _ => trivial
  | expectName fault => exact (meets_expectName fault).imp False.elim fun _ _ _ _ => trivial
  | acceptAssignment => exact meets_acceptAssignment.imp False.elim fun _ _ _ _ => trivial
  | acceptConnective level => exact (meets_acceptConnective level).imp False.elim fun _ _ _ _ => trivial
  | acceptLeading => exact meets_acceptLeading.imp False.elim fun _ _ _ _ => trivial
  | atom => exact meets_atom.imp False.elim fun _ _ _ _ => trivial
  | superclass => exact meets_superclass.imp False.elim fun _ _ _ _ => trivial
  | parameterList count => exact (meets_parameterList fuel count r).imp id fun _ _ _ _ => trivial
  | parameters => exact (meets_parameters fuel r).imp id fun _ _ _ _ => trivial
  | expression => exact (hr.expression r).imp id fun _ _ _ _ => trivial
  | operand level => exact (hr.operand level r).imp id fun _ _ _ _ => trivial
  | operatorChain level left => exact meets_operatorChain fuel level left r
  | unary => exact (hr.unary r).imp id fun _ _ _ _ => trivial
  | suffixes head => exact meets_suffixes fuel head r
  | argumentList count => exact (hr.argumentList count r).imp id fun _ _ _ _ => trivial
  | primary => exact (hr.primary r).imp id fun _ _ _ _ => trivial
  | routineBody closed => exact (hr.routineBody closed r).imp id fun _ _ _ _ => trivial
  | block => exact (hr.block r).imp id fun _ _ _ _ => trivial
  | declarations => exact (hr.declarations r).imp id fun _ _ _ _ => trivial
  | declaration => exact meets_declaration fuel r
  | classDeclaration => exact (hr.classDeclaration r).imp id fun _ _ _ _ => trivial
  | members => exact (hr.members r).imp id fun _ _ _ _ => trivial
  | method => exact (hr.method r).imp id fun _ _ _ _ => trivial
  | varDeclaration => exact (hr.varDeclaration r).imp id fun _ _ _ _ => trivial
  | statement => exact (hr.statement r).imp id fun _ _ _ _ => trivial
  | expressionStatement => exact (hr.expressionStatement r).imp id fun _ _ _ _ => trivial
  | ifStatement => exact (hr.ifStatement r).imp id fun _ _ _ _ => trivial
  | forStatement => exact (hr.forStatement r).imp id fun _ _ _ _ => trivial
  | forInitializer => exact (hr.forInitializer r).imp id fun _ _ _ _ => trivial
  | program => exact (meets_program fuel r).imp id fun _ _ _ _ => trivial
  | wholeExpression => exact meets_wholeExpression fuel r

theorem later {task : ParseTask} {fuel : Nat} {r r' : Reader} (h : (task.run fuel r).EndsIn r') : r.Later r' := by
  have hm := task.meets fuel r fun _ _ _ _ => trivial
  cases ho : task.run fuel r with
  | done a r₁ => rw [ho] at hm h; exact h ▸ hm.1
  | failed e r₁ => rw [ho] at hm h; exact h ▸ hm
  | exhausted => rw [ho] at h; exact h.elim

/-- With enough fuel the task ends, and more does not change how. -/
theorem ends (task : ParseTask) {fuel : Nat} {r : Reader} (h : r.need task.rank ≤ fuel) :
    task.run fuel r ≠ .exhausted ∧ task.run fuel r = task.run (r.need task.rank) r := by
  have hneed : task.run (r.need task.rank) r ≠ .exhausted := fun he => by
    have hm := task.meets (r.need task.rank) r fun _ _ _ _ => trivial
    rw [he] at hm
    exact Nat.lt_irrefl _ hm
  have heq := task.steady h r hneed
  exact ⟨heq ▸ hneed, heq⟩

end ParseTask

/-! ## Parsing -/

/-- The rule reports its errors and does not end with one. -/
def Recovers {α : Type} (rule : Parse α) : Prop := ∀ r e r', rule r ≠ .failed e r'

namespace Recovers

variable {α β : Type} {rule : Parse α}

theorem pure (a : α) : Recovers (Pure.pure a) := fun _ _ _ h => by cases h

theorem exhausted : Recovers (Run.exhausted : Parse α) := fun _ _ _ h => by cases h

theorem bind {next : α → Parse β} (h : Recovers rule) (hn : ∀ a, Recovers (next a)) : Recovers (rule >>= next) := by
  intro r e r' hr
  rw [Run.bind_apply] at hr
  cases ho : rule r with
  | done a r₁ => rw [ho] at hr; exact hn a r₁ e r' hr
  | failed e₁ r₁ => exact h r e₁ r₁ ho
  | exhausted => rw [ho] at hr; cases hr

theorem recover (rule : Parse α) : Recovers (Parse.recover rule) := by
  intro r e r' hr
  unfold Parse.recover at hr
  split at hr <;> cases hr

theorem declaration (fuel : Nat) : Recovers (Parse.declaration fuel) := by
  cases fuel with
  | zero => exact exhausted
  | succ fuel => rw [Parse.declaration]; exact recover _

theorem program : ∀ fuel, Recovers (Parse.program fuel)
  | 0 => exhausted
  | fuel + 1 => by
    rw [Parse.program]
    have hkind : Recovers Parse.kind? := fun _ _ _ h => by cases h
    refine hkind.bind fun kind => ?_
    cases kind with
    | none => exact pure _
    | some kind => exact (declaration fuel).bind fun first => (program fuel).bind fun rest => pure _

end Recovers

/-- Parsing the tokens stays among them and comes to an end. -/
structure ParsesInRange (tokens : List Token) (nextId : NodeId) : Prop where
  start : (Reader.ofTokens tokens nextId).Within tokens ∧ (Reader.ofTokens tokens nextId).cursor tokens = 0
  /-- The first end of the input is one of the tokens. -/
  last : endIndex tokens < (closed tokens).length
  /-- What a reader looks at is the token at its cursor, which is not after the first end. -/
  sees : ∀ r : Reader, r.Within tokens → r.cursor tokens ≤ endIndex tokens ∧
    ∃ t, (closed tokens)[r.cursor tokens]? = some t ∧ r.Sees t
  /-- Reading does not leave the tokens, and does not go back. -/
  moves : ∀ (task : ParseTask) (fuel : Nat) (r r' : Reader), r.Within tokens → (task.run fuel r).EndsIn r' →
    r'.Within tokens ∧ r.cursor tokens ≤ r'.cursor tokens
  /-- All reading ends, and fuel does not decide how. -/
  ends : ∀ (task : ParseTask) (fuel : Nat) (r : Reader), r.need task.rank ≤ fuel →
    task.run fuel r ≠ .exhausted ∧ task.run fuel r = task.run (r.need task.rank) r
  /-- A declaration that is asked for before the end takes the reader further, also if there is an error in it. -/
  advances : ∀ r : Reader, r.Within tokens → r.cursor tokens < endIndex tokens → ∃ st r',
    (∀ fuel ≥ r.need ParseTask.declaration.rank, Parse.declaration fuel r = .done st r') ∧
      r.cursor tokens < r'.cursor tokens
  /-- A program is read to the first end. -/
  program : ∃ tree r', (∀ fuel ≥ grammarFuel tokens, Parse.program fuel (Reader.ofTokens tokens nextId) = .done tree r') ∧
    r'.cursor tokens = endIndex tokens ∧ parseProgram tokens nextId = ⟨tree, r'.errors, r'.nextId⟩
  /-- An expression is read, or there is an error. -/
  expression : ∃ r',
    (∀ fuel ≥ grammarFuel tokens, (Parse.wholeExpression fuel (Reader.ofTokens tokens nextId)).EndsIn r') ∧
    ((∃ e, parseExpression tokens nextId = ⟨some e, r'.errors, r'.nextId⟩) ∨
      ∃ error, parseExpression tokens nextId = ⟨none, r'.errors ++ [error], r'.nextId⟩)

theorem need_le_grammarFuel (tokens : List Token) (nextId : NodeId) {rank : Nat} (h : rank ≤ rulesPerToken) :
    (Reader.ofTokens tokens nextId).need rank ≤ grammarFuel tokens := by
  have hlen : (Reader.ofTokens tokens nextId).tokens.length ≤ tokens.length := (List.takeWhile_prefix _).length_le
  unfold Reader.need grammarFuel rulesPerToken at *
  omega

/-- With the fuel of a parser a task ends on its tokens, and more does not change how. -/
theorem ParseTask.ends_first (task : ParseTask) (tokens : List Token) (nextId : NodeId) (h : task.rank ≤ rulesPerToken) :
    task.run (grammarFuel tokens) (Reader.ofTokens tokens nextId) ≠ .exhausted ∧ ∀ fuel ≥ grammarFuel tokens,
      task.run fuel (Reader.ofTokens tokens nextId) = task.run (grammarFuel tokens) (Reader.ofTokens tokens nextId) := by
  have hne := (task.ends (need_le_grammarFuel tokens nextId h)).1
  exact ⟨hne, fun fuel hfuel => task.steady hfuel _ hne⟩

theorem Reader.Within.advances {tokens : List Token} {r : Reader} (h : r.Within tokens)
    (hlt : r.cursor tokens < endIndex tokens) : ∃ st r',
      (∀ fuel ≥ r.need ParseTask.declaration.rank, Parse.declaration fuel r = .done st r') ∧
        r.cursor tokens < r'.cursor tokens := by
  have hne := h.cursor_lt_end.mp hlt
  have hm := (Parse.rules (fun _ => True) (r.need 13)).declaration r hne fun _ _ _ _ => trivial
  cases ho : Parse.declaration (r.need 13) r with
  | done st r' =>
    rw [ho] at hm
    exact ⟨st, r', fun fuel hf => (ParseTask.declaration.ends hf).2.trans ho, h.cursor_lt hm.2.1⟩
  | failed e r' => exact absurd ho (Recovers.declaration _ r e r')
  | exhausted => exact absurd ho (ParseTask.declaration.ends (Nat.le_refl _)).1

theorem parses_in_range (tokens : List Token) (nextId : NodeId) : ParsesInRange tokens nextId where
  start := ⟨Reader.within_ofTokens tokens nextId, by rw [Reader.cursor, endIndex_eq tokens nextId, Nat.sub_self]⟩
  last := by
    obtain ⟨rest, hclosed⟩ := closed_eq tokens nextId
    rw [endIndex_eq tokens nextId, hclosed]
    simp
  sees r h := ⟨Nat.sub_le _ _, h.sees⟩
  moves _ _ _ _ h he := ⟨h.later (ParseTask.later he), (ParseTask.later he).cursor_le⟩
  ends task _ _ hf := task.ends hf
  advances _ h hlt := h.advances hlt
  program := by
    obtain ⟨hne, hsame⟩ := ParseTask.program.ends_first tokens nextId (by decide)
    cases ho : Parse.program (grammarFuel tokens) (Reader.ofTokens tokens nextId) with
    | done tree r' =>
      refine ⟨tree, r', fun fuel hf => (hsame fuel hf).trans ho, Reader.cursor_of_nil (Parse.program_ends ho), ?_⟩
      rw [parseProgram, ho]
    | failed e r' => exact absurd ho (Recovers.program _ _ e r')
    | exhausted => exact absurd ho hne
  expression := by
    obtain ⟨hne, hsame⟩ := ParseTask.wholeExpression.ends_first tokens nextId (by decide)
    unfold parseExpression
    cases ho : Parse.wholeExpression (grammarFuel tokens) (Reader.ofTokens tokens nextId) with
    | done e r' =>
      refine ⟨r', fun fuel hf => ?_, .inl ⟨e, rfl⟩⟩
      rw [show Parse.wholeExpression fuel _ = _ from (hsame fuel hf).trans ho]
      rfl
    | failed e r' =>
      refine ⟨r', fun fuel hf => ?_, .inr ⟨e, rfl⟩⟩
      rw [show Parse.wholeExpression fuel _ = _ from (hsame fuel hf).trans ho]
      rfl
    | exhausted => exact absurd ho hne

/-- What stands after an end of the input is not read. -/
example : let tokens : List Token := [⟨.mark .semicolon, 1⟩, ⟨.eof, 1⟩, ⟨.mark .comma, 2⟩]
    endIndex tokens = 1 ∧ (closed tokens).length = 4 ∧ (parseProgram tokens 0).errors.length = 1 := by decide +kernel

end Lox
