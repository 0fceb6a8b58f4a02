import Lox.Proofs.Syntax.Fits

/-!
# The grammar as it is documented

The rules as phrases over kinds of tokens, and what they derive. A tree that fits its place is written as the rules
derive it.
-/

namespace Lox

open Token (Kind)

inductive Rule where
  | program | declaration | classDecl | funDecl | method | body | varDecl
  | statement | exprStmt | forStmt | ifStmt | printStmt | returnStmt | breakStmt | whileStmt | block
  | expression | assignment | logicOr | logicAnd | equality | comparison | term | factor | unary | call | primary
  | arguments | parameters

/-- The right side of a rule. -/
inductive Phrase where
  | word (is : Kind → Prop)
  | rule (name : Rule)
  | seq (first second : Phrase)
  | choice (first second : Phrase)
  | optional (part : Phrase)
  | many (part : Phrase)

namespace Phrase

instance : Append Phrase := ⟨seq⟩

def alternatives : List Phrase → Phrase
  | [] => word fun _ => False
  | p :: ps => choice p (alternatives ps)

def mark (m : Mark) : Phrase := word (· = .mark m)

def anyMark (ms : List Mark) : Phrase := word fun k => ∃ m ∈ ms, k = .mark m

def keyword (k : Keyword) : Phrase := word (· = .keyword k)

def identifier : Phrase := word fun k => ∃ name, k = .identifier name

def number : Phrase := word fun k => ∃ digits value, k = .number digits value

def string : Phrase := word fun k => ∃ content, k = .string content

/-- Parts between separators. -/
def chain (part separator : Phrase) : Phrase := part ++ many (separator ++ part)

def parenthesized (part : Phrase) : Phrase := mark .leftParen ++ part ++ mark .rightParen

end Phrase

open Phrase in
/-- The rules. The end of the input is not among the tokens. -/
def Rule.production : Rule → Phrase
  | program => many (rule declaration)
  | declaration => alternatives [rule classDecl, rule funDecl, rule varDecl, rule statement]
  | classDecl =>
    keyword .klass ++ identifier ++ optional (mark .colon ++ identifier) ++ mark .leftBrace ++
      many (optional (keyword .klass) ++ rule method) ++ mark .rightBrace
  | funDecl => keyword .fun ++ identifier ++ parenthesized (optional (rule parameters)) ++ rule body
  | method => identifier ++ optional (parenthesized (optional (rule parameters))) ++ rule body
  | body => alternatives [rule block, mark .colon ++ rule expression ++ mark .semicolon]
  | varDecl => keyword .var ++ identifier ++ optional (mark .equal ++ rule expression) ++ mark .semicolon
  | statement => alternatives [rule exprStmt, rule forStmt, rule ifStmt, rule printStmt, rule returnStmt,
      rule breakStmt, rule whileStmt, rule block]
  | exprStmt => rule expression ++ mark .semicolon
  | forStmt =>
    keyword .for ++ mark .leftParen ++ alternatives [rule varDecl, rule exprStmt, mark .semicolon] ++
      optional (rule expression) ++ mark .semicolon ++ optional (rule expression) ++ mark .rightParen ++ rule statement
  | ifStmt =>
    keyword .if ++ parenthesized (rule expression) ++ rule statement ++ optional (keyword .else ++ rule statement)
  | printStmt => keyword .print ++ rule expression ++ mark .semicolon
  | returnStmt => keyword .return ++ optional (rule expression) ++ mark .semicolon
  | breakStmt => keyword .break ++ mark .semicolon
  | whileStmt => keyword .while ++ parenthesized (rule expression) ++ rule statement
  | block => mark .leftBrace ++ many (rule declaration) ++ mark .rightBrace
  | expression => rule assignment
  | assignment =>
    alternatives [optional (rule call ++ mark .dot) ++ identifier ++
        anyMark [.equal, .plusEqual, .minusEqual, .starEqual, .slashEqual, .percentEqual] ++ rule assignment,
      rule logicOr]
  | logicOr => chain (rule logicAnd) (keyword .or)
  | logicAnd => chain (rule equality) (keyword .and)
  | equality => chain (rule comparison) (anyMark [.bangEqual, .equalEqual])
  | comparison => chain (rule term) (anyMark [.greater, .greaterEqual, .less, .lessEqual])
  | term => chain (rule factor) (anyMark [.minus, .plus])
  | factor => chain (rule unary) (anyMark [.slash, .star, .percent])
  | unary => alternatives [anyMark [.bang, .minus, .plusPlus, .minusMinus] ++ rule unary, rule call]
  | call =>
    rule primary ++ many (alternatives [parenthesized (optional (rule arguments)), mark .dot ++ identifier])
  | primary => alternatives [number, string, keyword .true, keyword .false, keyword .nil, keyword .this,
      keyword .super ++ mark .dot ++ identifier, identifier, parenthesized (rule expression),
      keyword .fun ++ parenthesized (optional (rule parameters)) ++
        alternatives [rule block, mark .colon ++ rule expression]]
  | arguments => chain (rule expression) (mark .comma)
  | parameters => chain identifier (mark .comma)

inductive Derives : Phrase → List Kind → Prop
  | word {is k} : is k → Derives (.word is) [k]
  | rule {name ks} : Derives name.production ks → Derives (.rule name) ks
  | seq {p q xs ys} : Derives p xs → Derives q ys → Derives (p ++ q) (xs ++ ys)
  | first {p q ks} : Derives p ks → Derives (.choice p q) ks
  | second {p q ks} : Derives q ks → Derives (.choice p q) ks
  | absent {p} : Derives (.optional p) []
  | present {p ks} : Derives p ks → Derives (.optional p) ks
  | done {p} : Derives (.many p) []
  | more {p xs ys} : Derives p xs → Derives (.many p) ys → Derives (.many p) (xs ++ ys)

namespace Derives

variable {p q : Phrase} {xs ys zs ks : List Kind}

theorem of_eq (h : Derives p xs) (he : xs = ys) : Derives p ys := he ▸ h

theorem mark (m : Mark) : Derives (Phrase.mark m) [.mark m] := .word rfl

theorem anyMark {m : Mark} {ms : List Mark} (h : m ∈ ms) : Derives (.anyMark ms) [.mark m] := .word ⟨m, h, rfl⟩

theorem keyword (k : Keyword) : Derives (Phrase.keyword k) [.keyword k] := .word rfl

/-- The alternative with the given place among all. -/
theorem nth : ∀ {ps : List Phrase} (i : Nat), ps[i]? = some p → Derives p ks → Derives (.alternatives ps) ks
  | _ :: _, 0, hp, h => .first (Option.some.inj hp ▸ h)
  | _ :: _, i + 1, hp, h => .second (nth i hp h)

theorem identifier (name : String) : Derives Phrase.identifier [.identifier name] := .word ⟨name, rfl⟩

theorem many_append (h : Derives (.many p) xs) (h' : Derives p ys) : Derives (.many p) (xs ++ ys) := by
  generalize hp : Phrase.many p = m at h
  induction h with
  | done => cases hp; exact (h'.more .done).of_eq (List.append_nil _)
  | more hx _ _ ih =>
    cases hp
    exact (hx.more (ih rfl)).of_eq (List.append_assoc _ _ _).symm
  | _ => cases hp

theorem chain_one (h : Derives p xs) : Derives (p.chain q) xs := (h.seq .done).of_eq (List.append_nil _)

theorem chain_append (h : Derives (p.chain q) xs) (hq : Derives q ys) (hp : Derives p zs) :
    Derives (p.chain q) (xs ++ (ys ++ zs)) := by
  cases h with
  | seq h₁ h₂ => exact (h₁.seq (h₂.many_append (hq.seq hp))).of_eq (List.append_assoc _ _ _).symm

theorem chain_cons (hp : Derives p zs) (hq : Derives q ys) (h : Derives (p.chain q) xs) :
    Derives (p.chain q) (zs ++ (ys ++ xs)) := by
  cases h with
  | seq h₁ h₂ => exact (hp.seq ((hq.seq h₁).more h₂)).of_eq (by simp only [List.append_assoc])

theorem parenthesized (h : Derives p ks) : Derives p.parenthesized (.mark .leftParen :: ks ++ [.mark .rightParen]) :=
  ((mark .leftParen).seq h).seq (mark .rightParen)

end Derives

/-! ## The end of the input -/

/-- The phrase itself has no place for the token. -/
def Phrase.Avoids (kind : Kind) : Phrase → Prop
  | word is => ¬ is kind
  | rule _ => True
  | seq p q | choice p q => p.Avoids kind ∧ q.Avoids kind
  | optional p | many p => p.Avoids kind

theorem Rule.production_avoids_eof (name : Rule) : name.production.Avoids .eof := by
  cases name <;> simp [production, Phrase.alternatives, Phrase.chain, Phrase.parenthesized, Phrase.mark,
    Phrase.anyMark, Phrase.keyword, Phrase.identifier, Phrase.number, Phrase.string, Phrase.Avoids, HAppend.hAppend,
    Append.append]

theorem Derives.no_eof {p : Phrase} {ks : List Kind} (h : Derives p ks) (hp : p.Avoids .eof) : .eof ∉ ks := by
  induction h with
  | word hk =>
    rintro (_ | ⟨_, ⟨⟩⟩)
    exact hp hk
  | rule _ ih => exact ih (Rule.production_avoids_eof _)
  | seq _ _ ih ih' => simpa using ⟨ih hp.1, ih' hp.2⟩
  | first _ ih => exact ih hp.1
  | second _ ih => exact ih hp.2
  | absent | done => exact List.not_mem_nil
  | present _ ih => exact ih hp
  | more _ _ ih ih' => simpa using ⟨ih hp, ih' hp⟩

/-! ## Expressions -/

/-- The rule for expressions of the given strength. -/
def Rank.rule : Nat → Rule
  | 0 => .assignment
  | 1 => .logicOr
  | 2 => .logicAnd
  | 3 => .equality
  | 4 => .comparison
  | 5 => .term
  | 6 => .factor
  | 7 => .unary
  | 8 => .call
  | _ => .primary

namespace Derives

variable {p q : Phrase} {xs ys zs ks : List Kind}

theorem weaker_succ {n : Nat} (hn : n < Rank.primary) (h : Derives (.rule (Rank.rule (n + 1))) ks) :
    Derives (.rule (Rank.rule n)) ks :=
  match n, hn with
  | 0, _ => .rule (.nth 1 rfl h)
  | 1, _ => .rule (chain_one h)
  | 2, _ => .rule (chain_one h)
  | 3, _ => .rule (chain_one h)
  | 4, _ => .rule (chain_one h)
  | 5, _ => .rule (chain_one h)
  | 6, _ => .rule (chain_one h)
  | 7, _ => .rule (.nth 1 rfl h)
  | 8, _ => .rule ((h.seq .done).of_eq (List.append_nil _))

/-- What is stronger may stand where something weaker may. -/
theorem weaker {m n : Nat} (hmn : m ≤ n) (hn : n ≤ Rank.primary) (h : Derives (.rule (Rank.rule n)) ks) :
    Derives (.rule (Rank.rule m)) ks := by
  induction n with
  | zero => obtain rfl := Nat.le_zero.mp hmn; exact h
  | succ n ih =>
    rcases Nat.lt_or_eq_of_le hmn with hlt | rfl
    · exact ih (Nat.lt_succ_iff.mp hlt) (Nat.le_of_succ_le hn) (weaker_succ hn h)
    · exact h

theorem expression {n : Nat} (hn : n ≤ Rank.primary) (h : Derives (.rule (Rank.rule n)) ks) :
    Derives (.rule .expression) ks :=
  .rule (h.weaker (Nat.zero_le n) hn)

theorem rule_chain {name : Rule} (hp : name.production = p.chain q) (h : Derives (.rule name) xs) (hq : Derives q ys)
    (hz : Derives p zs) : Derives (.rule name) (xs ++ (ys ++ zs)) := by
  cases h with
  | rule h =>
    rw [hp] at h
    exact .rule (by rw [hp]; exact h.chain_append hq hz)

/-- One more operand with an operator before it. -/
theorem binary {op : Mark} (hop : 0 < op.rank) (hl : Derives (.rule (Rank.rule op.rank)) xs)
    (hr : Derives (.rule (Rank.rule (op.rank + 1))) zs) : Derives (.rule (Rank.rule op.rank)) (xs ++ .mark op :: zs) := by
  cases op with
  | bangEqual | equalEqual | greater | greaterEqual | less | lessEqual | minus | plus | slash | star | percent =>
    exact hl.rule_chain rfl (.anyMark (by decide)) hr
  | _ => exact absurd hop (Nat.lt_irrefl 0)

theorem logical {op : LogicalOp} (hl : Derives (.rule (Rank.rule op.rank)) xs)
    (hr : Derives (.rule (Rank.rule (op.rank + 1))) zs) :
    Derives (.rule (Rank.rule op.rank)) (xs ++ .keyword op.keyword :: zs) := by
  cases op with
  | or => exact hl.rule_chain rfl (.keyword _) hr
  | and => exact hl.rule_chain rfl (.keyword _) hr

theorem suffix (h : Derives (.rule .call) xs) (hs : Derives (.alternatives
    [(Phrase.optional (.rule .arguments)).parenthesized, .mark .dot ++ .identifier]) ys) : Derives (.rule .call) (xs ++ ys) := by
  cases h with
  | rule h =>
    cases h with
    | seq h₁ h₂ => exact .rule ((h₁.seq (h₂.many_append hs)).of_eq (List.append_assoc _ _ _).symm)

theorem names : ∀ {params : List Name}, params ≠ [] → Derives (.rule .parameters) (nameKinds params)
  | [x], _ => .rule (chain_one (.identifier x.text))
  | x :: y :: rest, _ => by
    have h := names (List.cons_ne_nil y rest)
    cases h with
    | rule h => exact .rule (chain_cons (.identifier x.text) (.mark .comma) h)

theorem parameters (params : List Name) :
    Derives (Phrase.optional (.rule .parameters)).parenthesized (parameterKinds false params) := by
  cases params with
  | nil => exact parenthesized .absent
  | cons x rest => exact parenthesized (.present (names (List.cons_ne_nil x rest)))

theorem literal : ∀ {value : Literal}, value.Written ks → Derives (.rule .primary) ks
  | .number _, ⟨_, hk⟩ => hk ▸ .rule (.nth 0 rfl (.word ⟨_, _, rfl⟩))
  | .string _, hk => hk ▸ .rule (.nth 1 rfl (.word ⟨_, rfl⟩))
  | .bool true, hk => hk ▸ .rule (.nth 2 rfl (.keyword .true))
  | .bool false, hk => hk ▸ .rule (.nth 3 rfl (.keyword .false))
  | .nil, hk => hk ▸ .rule (.nth 4 rfl (.keyword .nil))

/-! ## Bodies -/

theorem block (h : Derives (.many (.rule .declaration)) ks) :
    Derives (.rule .block) (.mark .leftBrace :: ks ++ [.mark .rightBrace]) :=
  .rule (((mark .leftBrace).seq h).seq (mark .rightBrace))

end Derives

/-- A block, or a colon and an expression. -/
def DerivesBody (closed : Bool) (ks : List Kind) : Prop :=
  (∃ inner, ks = .mark .leftBrace :: inner ++ [.mark .rightBrace] ∧ Derives (.many (.rule .declaration)) inner) ∨
    ∃ ke, ks = .mark .colon :: ke ++ endKinds closed ∧ Derives (.rule .expression) ke

namespace Derives

variable {ks : List Kind}

theorem lambdaBody (h : DerivesBody false ks) :
    Derives (.alternatives [.rule .block, .mark .colon ++ .rule .expression]) ks := by
  rcases h with ⟨inner, rfl, h⟩ | ⟨ke, rfl, h⟩
  · exact .nth 0 rfl h.block
  · exact .nth 1 rfl (((mark .colon).seq h).of_eq (List.append_nil _).symm)

theorem closedBody (h : DerivesBody true ks) : Derives (.rule .body) ks := by
  rcases h with ⟨inner, rfl, h⟩ | ⟨ke, rfl, h⟩
  · exact .rule (.nth 0 rfl h.block)
  · exact .rule (.nth 1 rfl (((mark .colon).seq h).seq (mark .semicolon)))

/-- A statement that is no declaration. -/
theorem statement {st : Stmt} (h : Derives Rule.statement.production ks) :
    Derives (.rule .declaration) ks ∧ (st.isDeclaration = false → Derives (.rule .statement) ks) :=
  ⟨.rule (.nth 3 rfl (.rule h)), fun _ => .rule h⟩

theorem superclass (ref : Option Reference) :
    Derives (.optional (.mark .colon ++ .identifier)) (superclassKinds ref) := by
  cases ref with
  | none => exact .absent
  | some ref => exact .present ((mark .colon).seq (identifier ref.name.text))

/-- The members of a class in any order. -/
theorem members {ms ss members : List (List Kind)} (hi : Interleaves ms (ss.map (.keyword .klass :: ·)) members)
    (hm : ∀ k ∈ ms, Derives (.rule .method) k) (hs : ∀ k ∈ ss, Derives (.rule .method) k) :
    Derives (.many (.optional (.keyword .klass) ++ .rule .method)) members.flatten := by
  generalize ht : ss.map (.keyword .klass :: ·) = ts at hi
  induction hi generalizing ss with
  | nil => exact .done
  | left hi ih =>
    obtain ⟨hk, hm⟩ := List.forall_mem_cons.mp hm
    exact (Derives.absent.seq hk).more (ih hm hs ht)
  | right hi ih =>
    cases ss with
    | nil => cases ht
    | cons k ss =>
      obtain ⟨hk, hs⟩ := List.forall_mem_cons.mp hs
      obtain ⟨rfl, rfl⟩ := List.cons.inj ht
      exact ((keyword .klass).present.seq hk).more (ih hm hs rfl)

end Derives

/-! ## Trees -/

section
variable {short : Prop}

open Derives in
mutual

/-- An expression that fits is derived by the rule for its strength. -/
theorem Expr.Fits.derives : ∀ {e : Expr} {ks : List Kind}, e.Fits short → e.Written ks →
    Derives (.rule (Rank.rule e.rank)) ks
  | .literal _, _, _, hk => Derives.literal hk
  | .unary op _ e, _, ⟨hop, hrank, he⟩, ⟨_, rfl, hk⟩ => by
    have hmark : Derives (.anyMark [.bang, .minus, .plusPlus, .minusMinus]) [.mark op] := by
      cases op with
      | bang | minus => exact .anyMark (by decide)
      | _ => cases hop
    exact .rule (.nth 0 rfl (hmark.seq ((Expr.Fits.derives he hk).weaker hrank e.rank_le)))
  | .binary _ _ l r, _, ⟨hop, hl, hr, hfl, hfr⟩, ⟨_, _, rfl, hkl, hkr⟩ =>
    binary hop ((Expr.Fits.derives hfl hkl).weaker hl l.rank_le) ((Expr.Fits.derives hfr hkr).weaker hr r.rank_le)
  | .logical _ _ l r, _, ⟨hl, hr, hfl, hfr⟩, ⟨_, _, rfl, hkl, hkr⟩ =>
    logical ((Expr.Fits.derives hfl hkl).weaker hl l.rank_le) ((Expr.Fits.derives hfr hkr).weaker hr r.rank_le)
  | .group e, _, h, ⟨_, rfl, hk⟩ =>
    .rule (.nth 8 rfl ((Expr.Fits.derives (e := e) h hk).expression e.rank_le).parenthesized)
  | .var _ name, _, _, hk => hk ▸ .rule (.nth 7 rfl (identifier name.text))
  | .assign _ name e, _, h, ⟨_, rfl, hk⟩ =>
    have hvalue := (Expr.Fits.derives (e := e) h hk).weaker (Nat.zero_le _) e.rank_le
    .rule (.nth 0 rfl (((absent.seq (identifier name.text)).seq (.anyMark (.head _))).seq hvalue))
  | .call callee _ [], _, ⟨hrank, _, hc, _⟩, ⟨_, _, rfl, hkc, rfl⟩ =>
    (((Expr.Fits.derives hc hkc).weaker hrank callee.rank_le).suffix (.nth 0 rfl absent.parenthesized)).of_eq
      (List.append_assoc _ _ _).symm
  | .call callee _ (e :: es), _, ⟨hrank, _, hc, ha⟩, ⟨_, _, rfl, hkc, hka⟩ => by
    have hcallee := (Expr.Fits.derives hc hkc).weaker hrank callee.rank_le
    have harguments := (FitsExprs.derives (List.cons_ne_nil e es) ha hka).present.parenthesized
    exact (hcallee.suffix (.nth 0 rfl harguments)).of_eq (List.append_assoc _ _ _).symm
  | .lambda _ r, _, h, ⟨_, rfl, hk⟩ => by
    obtain ⟨kb, rfl, hb⟩ := Routine.Fits.derives (show r.Fits short short from h) hk
    exact .rule (.nth 9 rfl ((((keyword .fun).seq (parameters r.params)).seq (lambdaBody hb))))
  | .get object name, _, ⟨hrank, ho⟩, ⟨_, rfl, hk⟩ =>
    ((Expr.Fits.derives ho hk).weaker hrank object.rank_le).suffix (.nth 1 rfl ((mark .dot).seq (identifier name.text)))
  | .set object name value, _, ⟨hrank, ho, hv⟩, ⟨_, _, rfl, hko, hkv⟩ => by
    have hvalue := (Expr.Fits.derives hv hkv).weaker (Nat.zero_le _) value.rank_le
    have hobject := (Expr.Fits.derives ho hko).weaker hrank object.rank_le
    refine .rule (.nth 0 rfl ?_)
    exact ((((hobject.seq (mark .dot)).present.seq (identifier name.text)).seq (.anyMark (.head _))).seq hvalue).of_eq
      (by simp only [List.append_assoc]; rfl)
  | .this _ _, _, _, hk => hk ▸ .rule (.nth 5 rfl (keyword .this))
  | .super _ _ method, _, _, hk =>
    hk ▸ .rule (.nth 6 rfl (((keyword .super).seq (mark .dot)).seq (identifier method.text)))

theorem FitsExprs.derives : ∀ {es : List Expr} {ks : List Kind}, es ≠ [] → FitsExprs short es → WrittenExprs es ks →
    Derives (.rule .arguments) ks
  | [e], _, _, ⟨h, _⟩, hk => .rule (chain_one ((Expr.Fits.derives h hk).expression e.rank_le))
  | e :: e' :: es, _, _, ⟨h, hs⟩, ⟨_, _, rfl, hk, hks⟩ => by
    cases FitsExprs.derives (List.cons_ne_nil e' es) hs hks with
    | rule hrest => exact .rule (chain_cons ((Expr.Fits.derives h hk).expression e.rank_le) (mark .comma) hrest)

/-- Only where a statement is no declaration it may stand in another one. -/
theorem Stmt.Fits.derives : ∀ {st : Stmt} {ks : List Kind}, st.Fits short → st.Written ks →
    Derives (.rule .declaration) ks ∧ (st.isDeclaration = false → Derives (.rule .statement) ks)
  | .expr e, _, h, ⟨_, rfl, hk⟩ =>
    statement (.nth 0 rfl (.rule (((Expr.Fits.derives h hk).expression e.rank_le).seq (mark .semicolon))))
  | .print e, _, h, ⟨_, rfl, hk⟩ => by
    have he := (Expr.Fits.derives h hk).expression e.rank_le
    exact statement (.nth 3 rfl (.rule (((keyword .print).seq he).seq (mark .semicolon))))
  | .varDecl name none, _, _, hk => by
    have hvar : Derives Rule.varDecl.production [.keyword .var, .identifier name.text, .mark .semicolon] :=
      (((keyword .var).seq (identifier name.text)).seq absent).seq (mark .semicolon)
    exact ⟨hk ▸ .rule (.nth 2 rfl (.rule hvar)), nofun⟩
  | .varDecl name (some e), _, h, ⟨_, rfl, hk⟩ => by
    have he := (Expr.Fits.derives h hk).expression e.rank_le
    have hvar := (((keyword .var).seq (identifier name.text)).seq ((mark .equal).seq he).present).seq (mark .semicolon)
    exact ⟨.rule (.nth 2 rfl (.rule hvar)), nofun⟩
  | .block _, _, h, ⟨_, rfl, hk⟩ => statement (.nth 7 rfl (FitsStmts.derives h hk).block)
  | .branch c _ none, _, ⟨hc, hdecl, ht⟩, ⟨_, _, rfl, hkc, hkt⟩ => by
    have hcond := ((Expr.Fits.derives hc hkc).expression c.rank_le).parenthesized
    have hthen := (Stmt.Fits.derives ht hkt).2 hdecl
    exact statement (.nth 2 rfl (.rule (((((keyword .if).seq hcond).seq hthen).seq absent).of_eq (by simp))))
  | .branch c _ (some _), _, ⟨hc, hdecl, _, ht, hdecl', he⟩, ⟨_, _, _, rfl, hkc, hkt, hke⟩ => by
    have hcond := ((Expr.Fits.derives hc hkc).expression c.rank_le).parenthesized
    have hthen := (Stmt.Fits.derives ht hkt).2 hdecl
    have helse := (keyword .else).seq ((Stmt.Fits.derives he hke).2 hdecl')
    exact statement (.nth 2 rfl (.rule (((((keyword .if).seq hcond).seq hthen).seq helse.present).of_eq (by simp))))
  | .loop c _, _, ⟨hc, hdecl, hb⟩, ⟨_, _, rfl, hkc, hkb⟩ => by
    have hcond := ((Expr.Fits.derives hc hkc).expression c.rank_le).parenthesized
    have hbody := (Stmt.Fits.derives hb hkb).2 hdecl
    exact statement (.nth 6 rfl (.rule ((((keyword .while).seq hcond).seq hbody).of_eq (by simp))))
  | .funDecl name routine, _, h, ⟨_, rfl, hk⟩ => by
    obtain ⟨kb, rfl, hb⟩ := Routine.Fits.derives h hk
    have hfun := (((keyword .fun).seq (identifier name.text)).seq (parameters routine.params)).seq (closedBody hb)
    exact ⟨.rule (.nth 1 rfl (.rule hfun)), nofun⟩
  | .returns .keyword _ none, _, _, hk =>
    hk ▸ statement (.nth 4 rfl (.rule (((keyword .return).seq absent).seq (mark .semicolon))))
  | .returns .keyword _ (some e), _, h, ⟨_, rfl, hk⟩ => by
    have he := (Expr.Fits.derives h hk).expression e.rank_le
    exact statement (.nth 4 rfl (.rule (((keyword .return).seq he.present).seq (mark .semicolon))))
  | .breaks _, _, _, hk => hk ▸ statement (.nth 5 rfl (.rule ((keyword .break).seq (mark .semicolon))))
  | .classDecl name ref _ _, _, ⟨hm, hs⟩, ⟨_, _, _, rfl, hkm, hks, hi⟩ => by
    have hmembers := members hi (FitsMethods.derives hm hkm) (FitsMethods.derives hs hks)
    have hclass := (((((keyword .klass).seq (identifier name.text)).seq (superclass ref)).seq (mark .leftBrace)).seq
      hmembers).seq (mark .rightBrace)
    have hdecl : Derives (.rule .declaration) _ := .rule (.nth 0 rfl (.rule hclass))
    exact ⟨hdecl.of_eq (by simp), nofun⟩

theorem FitsStmts.derives : ∀ {sts : List Stmt} {ks : List Kind}, FitsStmts short sts → WrittenStmts sts ks →
    Derives (.many (.rule .declaration)) ks
  | [], _, _, hk => hk ▸ .done
  | _ :: _, _, ⟨h, hs⟩, ⟨_, _, rfl, hk, hks⟩ => (Stmt.Fits.derives h hk).1.more (FitsStmts.derives hs hks)

theorem Routine.Fits.derives : ∀ {routine : Routine} {shortBody : Prop} {isGetter closed : Bool} {ks : List Kind},
    routine.Fits short shortBody → routine.Written isGetter closed ks →
      ∃ kb, ks = parameterKinds isGetter routine.params ++ kb ∧ DerivesBody closed kb
  | ⟨_, body⟩, _, _, _, _, hfit, hk => by
    obtain ⟨kb, rfl, ⟨h, inner, rfl, hi⟩ | ⟨-, h, hk⟩⟩ := Routine.Fits.body_spelled hfit hk
    · exact ⟨_, rfl, .inl ⟨inner, rfl, FitsStmts.derives h hi⟩⟩
    · exact ⟨_, rfl, .inr (FitsShort.derives h hk)⟩

theorem FitsShort.derives : ∀ {body : List Stmt} {closed : Bool} {ks : List Kind}, FitsShort short body →
    WrittenShort body closed ks → ∃ ke, ks = .mark .colon :: ke ++ endKinds closed ∧ Derives (.rule .expression) ke
  | [.returns .expressionBody _ (some e)], _, _, h, ⟨ke, hk, he⟩ =>
    ⟨ke, hk, (Expr.Fits.derives h he).expression e.rank_le⟩

theorem Method.Fits.derives : ∀ {m : Method} {ks : List Kind}, m.Fits short → m.Written ks → Derives (.rule .method) ks
  | ⟨name, false, routine⟩, _, ⟨_, h⟩, ⟨_, rfl, hk⟩ => by
    obtain ⟨kb, rfl, hb⟩ := Routine.Fits.derives h hk
    exact .rule ((((identifier name.text).seq (parameters routine.params).present).seq (closedBody hb)).of_eq (by simp))
  | ⟨name, true, routine⟩, _, ⟨_, h⟩, ⟨_, rfl, hk⟩ => by
    obtain ⟨kb, rfl, hb⟩ := Routine.Fits.derives h hk
    exact .rule (((identifier name.text).seq absent).seq (closedBody hb))

theorem FitsMethods.derives : ∀ {ms : List Method} {pieces : List (List Kind)}, FitsMethods short ms →
    WrittenMethods ms pieces → ∀ k ∈ pieces, Derives (.rule .method) k
  | [], _, _, hk => by cases hk; nofun
  | _ :: _, _, ⟨h, hs⟩, ⟨_, _, rfl, hk, hks⟩ =>
    List.forall_mem_cons.mpr ⟨Method.Fits.derives h hk, FitsMethods.derives hs hks⟩

end

end

end Lox
