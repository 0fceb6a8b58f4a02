import Mathlib.Data.List.TakeWhile
import Lox.Proofs.Grammar.Documented
import Lox.Proofs.Grammar.Found
import Lox.Source.Item

/-!
# Reading what was written

A tree that fits is found again by every rule that comes upon it written out. So reading the tokens of a program gives
the program: it is the only one that they can stand for.
-/

namespace Lox

open Token (Kind)

namespace Parse

/-- Every rule with this fuel. A rule that comes after a keyword is to be seen with it. -/
structure Finding (fuel : Nat) : Prop where
  expression {e : Expr} {ks rest : List Kind} :
    e.Spelled False Rank.assignment ks → Ends Rank.assignment rest → Finds (expression fuel) e.Alike ks rest
  operand {level : Nat} {e : Expr} {ks rest : List Kind} : level ≤ Connective.levels →
    e.Spelled False (level + 1) ks → Ends (level + 1) rest → Finds (operand fuel level) e.Alike ks rest
  operatorChain {level : Nat} {left left' e : Expr} {ks rest : List Kind} : level < Connective.levels →
    left.Alike left' → Trail (Joins False level) left e ks → Ends (level + 1) rest →
      Finds (operatorChain fuel level left') e.Alike ks rest
  unary {e : Expr} {ks rest : List Kind} :
    e.Spelled False Rank.unary ks → Ends Rank.unary rest → Finds (unary fuel) e.Alike ks rest
  suffixes {head head' e : Expr} {ks rest : List Kind} :
    head.Alike head' → Trail (Extends False) head e ks → Ends Rank.call rest → Finds (suffixes fuel head') e.Alike ks rest
  argumentList {count : Nat} {es : List Expr} {ks rest : List Kind} : es ≠ [] →
    WrittenExprs es ks → FitsExprs False es → count + es.length ≤ maxArity → rest.head? = some (.mark .rightParen) →
      Finds (argumentList fuel count) (AlikeExprs es) ks rest
  primary {e : Expr} {ks rest : List Kind} : e.Spelled False Rank.primary ks → Finds (primary fuel) e.Alike ks rest
  routineBody {shortBody : Prop} {closed : Bool} {body : List Stmt} {ks rest : List Kind} :
    BodySpelled False shortBody closed body ks → (shortBody → closed = true) →
      Finds (routineBody fuel closed) (AlikeStmts body) ks rest
  block {body : List Stmt} {inner rest : List Kind} : WrittenStmts body inner → FitsStmts False body →
    Finds (block fuel) (AlikeStmts body) (inner ++ [.mark .rightBrace]) rest
  declarations {sts : List Stmt} {ks rest : List Kind} :
    WrittenStmts sts ks → FitsStmts False sts → rest.head? = some (.mark .rightBrace) →
      Finds (declarations fuel) (AlikeStmts sts) ks rest
  declaration {st : Stmt} {ks rest : List Kind} :
    st.Written ks → st.Fits False → (st.endsOpen = true → rest.head? ≠ some (.keyword .else)) →
      Finds (declaration fuel) (fun found => ∃ st', found = some st' ∧ st.Alike st') ks rest
  classDeclaration {name : Name} {superclass : Option Reference} {methods statics : List Method} {ks rest : List Kind} :
    (Stmt.classDecl name superclass methods statics).Written (.keyword .klass :: ks) →
      (Stmt.classDecl name superclass methods statics).Fits False →
        Finds (classDeclaration fuel) (Stmt.classDecl name superclass methods statics).Alike ks rest
  members {methods statics : List Method} {ks rest : List Kind} :
    MembersSpelled False methods statics ks → rest.head? = some (.mark .rightBrace) →
      Finds (members fuel) (fun found => AlikeMethods methods found.1 ∧ AlikeMethods statics found.2) ks rest
  method {m : Method} {ks rest : List Kind} : m.Written ks → m.Fits False → Finds (method fuel) m.Alike ks rest
  varDeclaration {name : Name} {initializer : Option Expr} {ks rest : List Kind} :
    (Stmt.varDecl name initializer).Written (.keyword .var :: ks) → (Stmt.varDecl name initializer).Fits False →
      Finds (varDeclaration fuel) (Stmt.varDecl name initializer).Alike ks rest
  statement {st : Stmt} {ks rest : List Kind} : st.Spelled False ks rest → Finds (statement fuel) st.Alike ks rest
  expressionStatement {e : Expr} {ks rest : List Kind} : (Stmt.expr e).Written ks → (Stmt.expr e).Fits False →
    Finds (expressionStatement fuel) (Stmt.expr e).Alike ks rest
  ifStatement {condition : Expr} {thenBranch : Stmt} {elseBranch : Option Stmt} {ks rest : List Kind} :
    (Stmt.branch condition thenBranch elseBranch).Spelled False (.keyword .if :: ks) rest →
      Finds (ifStatement fuel) (Stmt.branch condition thenBranch elseBranch).Alike ks rest

namespace Finding

theorem zero : Finding 0 where
  expression _ _ := .exhausted
  operand _ _ _ := .exhausted
  operatorChain _ _ _ _ := .exhausted
  unary _ _ := .exhausted
  suffixes _ _ _ := .exhausted
  argumentList _ _ _ _ _ := .exhausted
  primary _ := .exhausted
  routineBody _ _ := .exhausted
  block _ _ := .exhausted
  declarations _ _ _ := .exhausted
  declaration _ _ _ := .exhausted
  classDeclaration _ _ := .exhausted
  members _ _ := .exhausted
  method _ _ := .exhausted
  varDeclaration _ _ := .exhausted
  statement _ := .exhausted
  expressionStatement _ _ := .exhausted
  ifStatement _ := .exhausted

section
variable {fuel : Nat} (h : Finding fuel) {e left left' head head' : Expr} {es : List Expr} {st : Stmt}
  {sts body : List Stmt} {ks rest : List Kind} {level count : Nat}
include h

/-! ### Expressions -/

/-- A whole expression, with a token behind it that does not go on with it. -/
theorem expression_before {kind : Kind} (hk : e.Written ks) (hf : e.Fits False) (hkind : kind.strength? = none) :
    Finds (Parse.expression fuel) e.Alike ks (kind :: rest) :=
  h.expression ⟨hk, hf, Nat.zero_le _⟩ (.of_none hkind)

theorem expression_succ (he : e.Spelled False Rank.assignment ks) (hrest : Ends Rank.assignment rest) :
    Finds (Parse.expression (fuel + 1)) e.Alike ks rest := by
  rw [Parse.expression]
  rcases he.assigned with he | ⟨target, value, kt, kv, rfl, ht, hv, ha⟩
  · refine (h.operand (Nat.zero_le _) he (hrest.mono (Nat.zero_le _))).whole fun e' he' => ?_
    refine (finds_noAssignment hrest).silent fun found hf => ?_
    subst hf
    exact .pure he'
  · have hequal : Ends (0 + 1) (.mark .equal :: kv ++ rest) := .of_some rfl (by decide)
    refine (h.operand (Nat.zero_le _) ht hequal).bind fun target' ht' => ?_
    refine finds_assignment.head fun found hf => ?_
    obtain ⟨site, rfl⟩ := hf
    exact (h.expression hv hrest).whole fun value' hv' => finds_assignTo ha ht' hv'

theorem operand_succ (hlevel : level ≤ Connective.levels) (he : e.Spelled False (level + 1) ks)
    (hrest : Ends (level + 1) rest) : Finds (Parse.operand (fuel + 1) level) e.Alike ks rest := by
  rw [Parse.operand]
  by_cases hlt : level < Connective.levels
  · rw [if_pos hlt]
    obtain ⟨first, kf, kt, rfl, hf, ht⟩ := he.chain hlt
    exact (h.operand hlt hf (ht.ends hrest)).bind fun first' hf' => h.operatorChain hlt hf' ht hrest
  · obtain rfl : level = Connective.levels := Nat.le_antisymm hlevel (Nat.le_of_not_lt hlt)
    rw [if_neg hlt]
    exact h.unary he hrest

theorem operatorChain_succ (hlevel : level < Connective.levels) (hl : left.Alike left')
    (ht : Trail (Joins False level) left e ks) (hrest : Ends (level + 1) rest) :
    Finds (Parse.operatorChain (fuel + 1) level left') e.Alike ks rest := by
  rw [Parse.operatorChain]
  cases ht with
  | nil =>
    refine (finds_noConnective hrest).silent fun found hf => ?_
    subst hf
    exact .pure hl
  | @cons _ joined _ _ ks' hj ht =>
    cases hj with
    | @join kind c _ right kr line hc hr =>
      refine (finds_connective hc).head fun found hf => ?_
      obtain ⟨line', rfl⟩ := hf
      refine (h.operand hlevel hr (ht.ends hrest)).bind fun right' hr' => h.operatorChain hlevel ?_ ht hrest
      cases c with
      | logical op => exact congrArg₂ (Expr.logical op 0) hl hr'
      | binary op => exact congrArg₂ (Expr.binary op 0) hl hr'

theorem unary_succ (he : e.Spelled False Rank.unary ks) (hrest : Ends Rank.unary rest) :
    Finds (Parse.unary (fuel + 1)) e.Alike ks rest := by
  rw [Parse.unary]
  by_cases hcall : Rank.call ≤ e.rank
  · obtain ⟨head, kh, kt, rfl, hh, ht⟩ := Expr.Spelled.primary ⟨he.written, he.fits, hcall⟩
    have hnone : ∀ m, (kh ++ kt ++ rest).head? = some (.mark m) → Leading.ofMark? m = none := fun m hm =>
      hh.not_leading (List.append_assoc .. ▸ hm)
    refine (finds_noLeading hnone).silent fun found hf => ?_
    subst hf
    exact (h.primary hh).bind fun head' hh' => h.suffixes hh' ht (hrest.mono (by decide))
  · obtain ⟨op, line, operand, rfl⟩ : ∃ op line operand, e = .unary op line operand := by
      have hr := he.rank
      cases e with
      | unary op line operand => exact ⟨op, line, operand, rfl⟩
      | binary op => exact absurd op.rank_lt (Nat.not_lt.mpr hr)
      | logical op => exact absurd op.rank_lt (Nat.not_lt.mpr hr)
      | _ => simp only [Expr.rank, Rank.assignment, Rank.unary, Rank.call, Rank.primary] at hr hcall; omega
    obtain ⟨ke, rfl, hk⟩ := he.written
    obtain ⟨hop, hrank, hf⟩ := he.fits
    refine (finds_leading hop).head fun found hfound => ?_
    obtain ⟨site, rfl⟩ := hfound
    exact (h.unary ⟨hk, hf, hrank⟩ hrest).map fun e' he' => congrArg (Expr.unary op 0) he'

theorem suffixes_succ (hh : head.Alike head') (ht : Trail (Extends False) head e ks) (hrest : Ends Rank.call rest) :
    Finds (Parse.suffixes (fuel + 1) head') e.Alike ks rest := by
  rw [Parse.suffixes]
  cases ht with
  | nil => exact finds_no (hrest.ne rfl (Nat.le_refl _)) (finds_no (hrest.ne rfl (Nat.le_refl _)) (.pure hh))
  | @cons _ _ _ _ ks' hx ht =>
    cases hx with
    | get name =>
      refine finds_other rfl (finds_yes (finds_name fun name' hname => ?_))
      have hget : (Expr.get head name).Alike (.get head' name') :=
        congrArg₂ Expr.get hh (Name.Alike.relined hname.symm)
      exact h.suffixes hget ht hrest
    | @call arguments ka line hlen hf hk =>
      have hargs : Finds (unlessAt .rightParen (Parse.argumentList fuel 0))
          (fun found => AlikeExprs arguments (found.getD [])) ka (.mark .rightParen :: ks' ++ rest) := by
        cases arguments with
        | nil =>
          obtain rfl := hk
          exact (finds_absent rfl).imp fun found hfound => hfound ▸ rfl
        | cons argument arguments =>
          have hne : (ka ++ (.mark .rightParen :: ks' ++ rest)).head? ≠ some (.mark .rightParen) :=
            (FitsExprs.begins hf hk).head_ne rfl
          refine (finds_present hne (h.argumentList (List.cons_ne_nil _ _) hk hf (by rwa [Nat.zero_add]) rfl)).imp ?_
          rintro found ⟨arguments', rfl, harguments⟩
          exact harguments
      refine finds_yes ?_
      rw [show (ka.append [.mark .rightParen]).append ks' = ka ++ .mark .rightParen :: ks' from List.append_assoc ..]
      refine hargs.bind fun found hfound => finds_mark fun line' => ?_
      have hcall : (Expr.call head line arguments).Alike (.call head' line' (found.getD [])) :=
        congrArg₂ (Expr.call · 0 ·) hh hfound
      exact h.suffixes hcall ht hrest

theorem argumentList_succ (hne : es ≠ []) (hk : WrittenExprs es ks) (hf : FitsExprs False es)
    (hlen : count + es.length ≤ maxArity) (hrest : rest.head? = some (.mark .rightParen)) :
    Finds (Parse.argumentList (fuel + 1) count) (AlikeExprs es) ks rest := by
  rw [Parse.argumentList]
  rcases es with _ | ⟨e, _ | ⟨e', es⟩⟩
  · exact absurd rfl hne
  · have hread := h.expression ⟨hk, hf.1, Nat.zero_le _⟩ (.of_head hrest rfl)
    refine (finds_checkCount hlen).silent fun _ _ => hread.whole fun e' he' => ?_
    exact finds_no (by simp [hrest]) (.pure (congrArg₂ List.cons he' rfl))
  · obtain ⟨ke, kr, rfl, hke, hkr⟩ := hk
    obtain ⟨hfe, hfr⟩ := hf
    have hlen : count + 1 + (e' :: es).length ≤ maxArity := by simpa +arith using hlen
    refine (finds_checkCount (Nat.lt_of_lt_of_le (by simp +arith) hlen)).silent fun _ _ => ?_
    refine (h.expression_before hke hfe rfl).bind fun first hfirst => finds_yes ?_
    exact (h.argumentList (List.cons_ne_nil _ _) hkr hfr hlen hrest).map fun _ hs => congrArg₂ List.cons hfirst hs

theorem primary_succ (he : e.Spelled False Rank.primary ks) : Finds (Parse.primary (fuel + 1)) e.Alike ks rest := by
  rw [Parse.primary]
  have of_atom : Finds atom? (fun found => ∃ e', found = some e' ∧ e.Alike e') ks rest →
      Finds (Parse.primary (fuel + 1)) e.Alike ks rest := by
    intro hatom
    rw [Parse.primary]
    refine hatom.whole fun found hfound => ?_
    obtain ⟨e', rfl, he'⟩ := hfound
    exact .pure he'
  obtain ⟨hw, hf, hr⟩ := he
  rw [Parse.primary] at of_atom
  cases e with
  | literal value => exact of_atom (finds_literal hw)
  | var id name =>
    obtain rfl := hw
    exact of_atom (finds_variable id name)
  | this id line =>
    obtain rfl := hw
    exact of_atom (finds_this id line)
  | super id line method =>
    obtain rfl := hw
    exact of_atom (finds_super id line method)
  | group inner =>
    obtain ⟨ke, rfl, hk⟩ := hw
    refine (finds_noAtom (.inl rfl)).silent fun found hfound => ?_
    subst hfound
    refine finds_line fun line => finds_yes ?_
    refine (h.expression_before hk hf rfl).bind fun inner' hinner => finds_mark fun _ => .pure ?_
    exact congrArg Expr.group hinner
  | lambda line routine =>
    obtain ⟨params, body⟩ := routine
    obtain ⟨kr, rfl, hk⟩ := hw
    obtain ⟨kb, rfl, hb⟩ := hf.body_spelled hk
    refine (finds_noAtom (.inr rfl)).silent fun found hfound => ?_
    subst hfound
    refine finds_line fun line' => finds_other rfl (finds_yes (finds_mark fun _ => ?_))
    refine (finds_parameters fuel hf.1).bind fun params' hparams => ?_
    refine (h.routineBody hb (by simp)).whole fun body' hbody => .pure ?_
    exact congrArg (Expr.lambda 0) (congrArg₂ Routine.mk hparams hbody)
  | binary op => exact absurd (Nat.lt_of_le_of_lt hr op.rank_lt) (by decide)
  | logical op => exact absurd (Nat.lt_of_le_of_lt hr op.rank_lt) (by decide)
  | _ => simp only [Expr.rank, Rank.assignment, Rank.unary, Rank.call, Rank.primary] at hr; omega

/-! ### Functions and classes -/

theorem routineBody_succ {shortBody : Prop} {closed : Bool} (hb : BodySpelled False shortBody closed body ks)
    (hclosed : shortBody → closed = true) :
    Finds (Parse.routineBody (fuel + 1) closed) (AlikeStmts body) ks rest := by
  rw [Parse.routineBody]
  refine finds_line fun line => ?_
  rcases hb with ⟨hf, inner, rfl, hw⟩ | ⟨hs, hf, hw⟩
  · exact finds_yes (h.block hw hf)
  · obtain ⟨line', e, ke, rfl, rfl, hk⟩ := hw.cases
    obtain rfl := hclosed hs
    refine finds_other rfl (finds_yes ?_)
    refine (h.expression_before hk hf rfl).bind fun value hvalue => (finds_endBody true).whole fun _ _ => .pure ?_
    exact congrArg (fun e => [Stmt.returns .expressionBody 0 (some e)]) hvalue

theorem block_succ {inner : List Kind} (hk : WrittenStmts body inner) (hf : FitsStmts False body) :
    Finds (Parse.block (fuel + 1)) (AlikeStmts body) (inner ++ [.mark .rightBrace]) rest := by
  rw [Parse.block]
  exact (h.declarations hk hf rfl).bind fun body' hbody => finds_mark fun _ => .pure hbody

theorem declarations_succ (hk : WrittenStmts sts ks) (hf : FitsStmts False sts)
    (hrest : rest.head? = some (.mark .rightBrace)) : Finds (Parse.declarations (fuel + 1)) (AlikeStmts sts) ks rest := by
  rw [Parse.declarations]
  cases sts with
  | nil =>
    obtain rfl := hk
    exact finds_notBefore hrest (.pure rfl)
  | cons st sts =>
    obtain ⟨k, kr, rfl, hk, hkr⟩ := hk
    obtain ⟨kind, more, hcons, -, hne⟩ := Stmt.Fits.begins_unlike hf.1 hk
    have hno : (kr ++ rest).head? ≠ some (.keyword .else) := hf.2.no_else hkr (by simp [hrest])
    refine finds_before (by rw [hcons]; rfl) hne ?_
    refine (h.declaration hk hf.1 fun _ => hno).bind fun first hfirst => ?_
    refine (h.declarations hkr hf.2 hrest).map fun more hmore => ?_
    obtain ⟨st', rfl, hst⟩ := hfirst
    exact congrArg₂ List.cons hst hmore

theorem declaration_succ (hk : st.Written ks) (hf : st.Fits False)
    (hopen : st.endsOpen = true → rest.head? ≠ some (.keyword .else)) :
    Finds (Parse.declaration (fuel + 1)) (fun found => ∃ st', found = some st' ∧ st.Alike st') ks rest := by
  rw [Parse.declaration]
  refine finds_recover ?_
  cases hdecl : st.isDeclaration with
  | false =>
    obtain ⟨hklass, hvar, hfun⟩ := hf.ne_declaration hk hdecl rest
    exact finds_no hklass (finds_noFunctionDeclaration hfun (finds_no hvar (h.statement ⟨hk, hf, hdecl, hopen⟩)))
  | true =>
    cases st with
    | varDecl name initializer =>
      obtain ⟨k, rfl⟩ : ∃ k, ks = .keyword .var :: k := by
        cases initializer with
        | none => exact ⟨_, hk⟩
        | some e => exact hk.imp' _ fun _ h => h.1
      exact finds_other rfl (finds_noFunctionDeclaration (by simp) (finds_yes (h.varDeclaration hk hf)))
    | funDecl name routine =>
      obtain ⟨params, body⟩ := routine
      obtain ⟨kr, rfl, hk⟩ := hk
      obtain ⟨kb, rfl, hb⟩ := hf.body_spelled hk
      refine finds_other rfl (finds_functionDeclaration (finds_skip ?_))
      refine finds_name fun name' hname => finds_mark fun _ => ?_
      refine (finds_parameters fuel hf.1).bind fun params' hparams => ?_
      refine (h.routineBody hb fun _ => rfl).whole fun body' hbody => .pure ?_
      exact congrArg₂ Stmt.funDecl (Name.Alike.relined hname.symm) (congrArg₂ Routine.mk hparams hbody)
    | classDecl name superclass methods statics =>
      obtain ⟨k, rfl⟩ : ∃ k, ks = .keyword .klass :: k := by
        obtain ⟨_, _, _, rfl, -⟩ := hk
        exact ⟨_, rfl⟩
      exact finds_yes (h.classDeclaration hk hf)
    | _ => cases hdecl

theorem classDeclaration_succ {name : Name} {superclass : Option Reference} {methods statics : List Method}
    (hk : (Stmt.classDecl name superclass methods statics).Written (.keyword .klass :: ks))
    (hf : (Stmt.classDecl name superclass methods statics).Fits False) :
    Finds (Parse.classDeclaration (fuel + 1)) (Stmt.classDecl name superclass methods statics).Alike ks rest := by
  rw [Parse.classDeclaration]
  obtain ⟨ms, ss, members, hks, hm, hs, hi⟩ := hk
  obtain rfl : ks = .identifier name.text :: (superclassKinds superclass ++
      .mark .leftBrace :: (members.flatten ++ [.mark .rightBrace])) := by simpa using hks
  refine finds_name fun name' hname => (finds_superclass (by simp)).bind fun superclass' hsuper => finds_mark fun _ => ?_
  refine (h.members ⟨ms, ss, members, rfl, hm, hs, hi, hf⟩ rfl).bind fun found hfound => ?_
  obtain ⟨methods', statics'⟩ := found
  refine finds_mark fun _ => .pure ?_
  rw [Stmt.Alike, Stmt.recoded, Stmt.recoded, hsuper, hfound.1, hfound.2, Name.Alike.relined hname.symm]

theorem members_succ {methods statics : List Method} (hm : MembersSpelled False methods statics ks)
    (hrest : rest.head? = some (.mark .rightBrace)) :
    Finds (Parse.members (fuel + 1)) (fun found => AlikeMethods methods found.1 ∧ AlikeMethods statics found.2) ks rest := by
  rw [Parse.members]
  obtain ⟨ms, ss, members, rfl, hm, hs, hi, hfm, hfs⟩ := hm
  generalize hss : ss.map (Kind.keyword .klass :: ·) = ss' at hi
  cases hi with
  | nil =>
    obtain rfl := List.map_eq_nil_iff.mp hss
    rw [hm.of_nil, hs.of_nil]
    exact finds_notBefore hrest (.pure ⟨rfl, rfl⟩)
  | @left k ms _ members hi =>
    subst hss
    obtain ⟨m, methods, rfl, hk, hms⟩ := hm.of_cons
    obtain ⟨kr, rfl⟩ := hk.begins
    refine finds_before rfl (by simp) ((finds_notAccepted (by simp)).silent fun isStatic hstatic => ?_)
    have hmore := h.members ⟨ms, ss, members, rfl, hms, hs, hi, hfm.2, hfs⟩ hrest
    refine (h.method hk hfm.1).bind fun m' hm' => hmore.whole ?_
    rintro ⟨methods', statics'⟩ ⟨hmethods, hstatics⟩
    subst hstatic
    exact .pure ⟨congrArg₂ List.cons hm' hmethods, hstatics⟩
  | @right k _ _ members hi =>
    obtain ⟨k, ss, rfl, rfl, rfl⟩ := List.map_eq_cons_iff.mp hss
    obtain ⟨m, statics, rfl, hk, hs⟩ := hs.of_cons
    refine finds_before rfl (by simp) (finds_accepted.head fun isStatic hstatic => ?_)
    have hmore := h.members ⟨ms, ss, members, rfl, hm, hs, hi, hfm, hfs.2⟩ hrest
    refine (h.method hk hfs.1).bind fun m' hm' => hmore.whole ?_
    rintro ⟨methods', statics'⟩ ⟨hmethods, hstatics⟩
    subst hstatic
    exact .pure ⟨hmethods, congrArg₂ List.cons hm' hstatics⟩

theorem method_succ {m : Method} (hk : m.Written ks) (hf : m.Fits False) :
    Finds (Parse.method (fuel + 1)) m.Alike ks rest := by
  rw [Parse.method]
  obtain ⟨name, isGetter, params, body⟩ := m
  obtain ⟨kr, rfl, hk⟩ := hk
  obtain ⟨hgetter, hf⟩ := hf
  obtain ⟨kb, rfl, hb⟩ := hf.body_spelled hk
  refine finds_name fun name' hname => ?_
  cases isGetter with
  | true =>
    obtain rfl : params = [] := hgetter rfl
    have hno : Finds (ifAccepted (.mark .leftParen) (parameters fuel)) (· = none) [] (kb ++ rest) :=
      finds_ifNotAccepted hb.no_parenthesis
    refine hno.silent fun found hfound => (h.routineBody hb fun _ => rfl).whole fun body' hbody => .pure ?_
    subst hfound
    exact congrArg₂ (Method.mk · true ·) (Name.Alike.relined hname.symm) (congrArg (Routine.mk []) hbody)
  | false =>
    refine (finds_ifAccepted (finds_parameters fuel hf.1)).bind fun found hfound => ?_
    refine (h.routineBody hb fun _ => rfl).whole fun body' hbody => .pure ?_
    obtain ⟨params', rfl, hparams⟩ := hfound
    exact congrArg₂ (Method.mk · false ·) (Name.Alike.relined hname.symm) (congrArg₂ Routine.mk hparams hbody)

/-! ### Statements -/

theorem varDeclaration_succ {name : Name} {initializer : Option Expr}
    (hk : (Stmt.varDecl name initializer).Written (.keyword .var :: ks))
    (hf : (Stmt.varDecl name initializer).Fits False) :
    Finds (Parse.varDeclaration (fuel + 1)) (Stmt.varDecl name initializer).Alike ks rest := by
  rw [Parse.varDeclaration]
  cases initializer with
  | none =>
    obtain rfl := (List.cons.inj hk).2
    refine finds_name fun name' hname => (finds_ifNotAccepted (by simp)).silent fun found hfound => ?_
    refine finds_mark fun _ => .pure ?_
    subst hfound
    exact congrArg (Stmt.varDecl · none) (Name.Alike.relined hname.symm)
  | some e =>
    obtain ⟨ke, hks, hk⟩ := hk
    obtain rfl := (List.cons.inj hks).2
    refine finds_name fun name' hname => ?_
    refine (finds_ifAccepted (h.expression_before hk hf rfl)).bind fun found hfound => finds_mark fun _ => .pure ?_
    obtain ⟨e', rfl, he⟩ := hfound
    exact congrArg₂ (fun name e => Stmt.varDecl name (some e)) (Name.Alike.relined hname.symm) he

theorem statement_succ (hs : st.Spelled False ks rest) : Finds (Parse.statement (fuel + 1)) st.Alike ks rest := by
  rw [Parse.statement]
  refine finds_line fun line => ?_
  obtain ⟨hk, hf, hinner, hclosed⟩ := hs
  cases st with
  | expr e =>
    obtain ⟨ke, rfl, hke⟩ := id hk
    have hb : BeginsExpression (ke ++ [.mark .semicolon]) := (Expr.Fits.begins hf hke).append
    refine finds_no (hb.head_ne rfl) (finds_no (hb.head_ne rfl) (finds_no (hb.head_ne rfl) (finds_no (hb.head_ne rfl) ?_)))
    exact finds_no (hb.head_ne rfl) (finds_no (hb.head_ne rfl) (finds_no (hb.head_ne rfl) (h.expressionStatement hk hf)))
  | branch condition thenBranch elseBranch =>
    obtain ⟨k, rfl⟩ : ∃ k, ks = .keyword .if :: k := by
      cases elseBranch with
      | none => obtain ⟨_, _, rfl, -⟩ := hk; exact ⟨_, rfl⟩
      | some e => obtain ⟨_, _, _, rfl, -⟩ := hk; exact ⟨_, rfl⟩
    exact finds_other rfl (finds_yes (h.ifStatement ⟨hk, hf, hinner, hclosed⟩))
  | loop condition body =>
    obtain ⟨kc, kb, rfl, hkc, hkb⟩ := hk
    obtain ⟨hfc, hib, hfb⟩ := hf
    refine finds_other rfl (finds_other rfl (finds_yes (finds_mark fun _ => ?_)))
    refine (h.expression_before hkc hfc rfl).bind fun condition' hcondition => finds_mark fun _ => ?_
    exact (h.statement ⟨hkb, hfb, hib, hclosed⟩).map fun body' hbody => congrArg₂ Stmt.loop hcondition hbody
  | returns form line' value =>
    cases form with
    | expressionBody => exact hk.elim
    | keyword =>
      cases value with
      | none =>
        obtain rfl := hk
        refine finds_other rfl (finds_other rfl (finds_other rfl (finds_yes ?_)))
        refine (finds_absent rfl).silent fun found hfound => finds_mark fun _ => .pure ?_
        subst hfound
        rfl
      | some e =>
        obtain ⟨ke, rfl, hke⟩ := hk
        have hne : (ke ++ .mark .semicolon :: rest).head? ≠ some (.mark .semicolon) :=
          (Expr.Fits.begins hf hke).head_ne rfl
        refine finds_other rfl (finds_other rfl (finds_other rfl (finds_yes ?_)))
        refine (finds_present hne (h.expression_before hke hf rfl)).bind fun found hfound => ?_
        refine finds_mark fun _ => .pure ?_
        obtain ⟨e', rfl, he'⟩ := hfound
        exact congrArg (fun e => Stmt.returns .keyword 0 (some e)) he'
  | breaks line' =>
    obtain rfl := hk
    exact finds_other rfl (finds_other rfl (finds_other rfl (finds_other rfl (finds_yes (finds_mark fun _ => .pure rfl)))))
  | block body =>
    obtain ⟨kb, rfl, hkb⟩ := hk
    refine finds_other rfl (finds_other rfl (finds_other rfl ?_))
    refine finds_other rfl (finds_other rfl (finds_yes ?_))
    exact (h.block hkb hf).map fun body' hbody => congrArg Stmt.block hbody
  | print e =>
    obtain ⟨ke, rfl, hke⟩ := hk
    refine finds_other rfl (finds_other rfl (finds_other rfl ?_))
    refine finds_other rfl (finds_other rfl (finds_other rfl (finds_yes ?_)))
    refine (h.expression_before hke hf rfl).bind fun e' he' => finds_mark fun _ => .pure ?_
    exact congrArg Stmt.print he'
  | _ => cases hinner

theorem expressionStatement_succ (hk : (Stmt.expr e).Written ks) (hf : (Stmt.expr e).Fits False) :
    Finds (Parse.expressionStatement (fuel + 1)) (Stmt.expr e).Alike ks rest := by
  rw [Parse.expressionStatement]
  obtain ⟨ke, rfl, hk⟩ := hk
  refine (h.expression_before hk hf rfl).bind fun e' he' => finds_mark fun _ => .pure ?_
  exact congrArg Stmt.expr he'

theorem ifStatement_succ {condition : Expr} {thenBranch : Stmt} {elseBranch : Option Stmt}
    (hs : (Stmt.branch condition thenBranch elseBranch).Spelled False (.keyword .if :: ks) rest) :
    Finds (Parse.ifStatement (fuel + 1)) (Stmt.branch condition thenBranch elseBranch).Alike ks rest := by
  rw [Parse.ifStatement]
  obtain ⟨hk, hf, -, hclosed⟩ := hs
  cases elseBranch with
  | none =>
    obtain ⟨kc, kt, hks, hkc, hkt⟩ := hk
    obtain ⟨hfc, hit, hft⟩ := hf
    obtain rfl := (List.cons.inj hks).2
    refine finds_mark fun _ => (h.expression_before hkc hfc rfl).bind fun condition' hcondition => ?_
    refine finds_mark fun _ => ?_
    refine (h.statement ⟨hkt, hft, hit, fun _ => hclosed rfl⟩).whole fun thenBranch' hthen => ?_
    refine (finds_ifNotAccepted (hclosed rfl)).silent fun found hfound => .pure ?_
    subst hfound
    exact congrArg₂ (Stmt.branch · · none) hcondition hthen
  | some elseBranch =>
    obtain ⟨kc, kt, ke, hks, hkc, hkt, hke⟩ := hk
    obtain ⟨hfc, hit, hot, hft, hie, hfe⟩ := hf
    obtain rfl : ks = .mark .leftParen :: (kc ++ .mark .rightParen :: (kt ++ .keyword .else :: ke)) := by
      simpa using hks
    refine finds_mark fun _ => (h.expression_before hkc hfc rfl).bind fun condition' hcondition => ?_
    refine finds_mark fun _ => ?_
    -- the branch before the `else` would not take it
    have hno : thenBranch.endsOpen ≠ true := by simp [hot]
    refine (h.statement ⟨hkt, hft, hit, fun hopen => absurd hopen hno⟩).bind fun thenBranch' hthen => ?_
    refine (finds_ifAccepted (h.statement ⟨hke, hfe, hie, hclosed⟩)).whole fun found hfound => .pure ?_
    obtain ⟨else', rfl, helse⟩ := hfound
    rw [Stmt.Alike, Stmt.recoded, Stmt.recoded, hcondition, hthen, helse]

end

end Finding

theorem finding : ∀ fuel, Finding fuel
  | 0 => .zero
  | fuel + 1 =>
    have h := finding fuel
    { expression := h.expression_succ
      operand := h.operand_succ
      operatorChain := h.operatorChain_succ
      unary := h.unary_succ
      suffixes := h.suffixes_succ
      argumentList := h.argumentList_succ
      primary := h.primary_succ
      routineBody := h.routineBody_succ
      block := h.block_succ
      declarations := h.declarations_succ
      declaration := h.declaration_succ
      classDeclaration := h.classDeclaration_succ
      members := h.members_succ
      method := h.method_succ
      varDeclaration := h.varDeclaration_succ
      statement := h.statement_succ
      expressionStatement := h.expressionStatement_succ
      ifStatement := h.ifStatement_succ }

theorem finds_program : ∀ (fuel : Nat) {sts : List Stmt} {ks : List Kind}, WrittenStmts sts ks → FitsStmts False sts →
    Finds (program fuel) (AlikeStmts sts) ks []
  | 0, _, _, _, _ => .exhausted
  | _ + 1, [], _, rfl, _ => finds_peek (.pure rfl)
  | fuel + 1, st :: sts, _, ⟨k, kr, rfl, hk, hkr⟩, ⟨hf, hfr⟩ => by
    rw [program]
    refine finds_peek ?_
    obtain ⟨kind, more, hcons, -⟩ := Stmt.Fits.begins_unlike hf hk
    have hhead : (k ++ kr ++ []).head? = some kind := by rw [hcons]; rfl
    rw [hhead]
    have hno : (kr ++ []).head? ≠ some (.keyword .else) := hfr.no_else hkr (by simp)
    refine ((finding fuel).declaration hk hf fun _ => hno).bind fun first hfirst => ?_
    refine (finds_program fuel hkr hfr).map fun rest hrest => ?_
    obtain ⟨st', rfl, hst⟩ := hfirst
    exact congrArg₂ List.cons hst hrest

end Parse

theorem WrittenStmts.no_eof {sts : List Stmt} {ks : List Kind} (hf : FitsStmts False sts) (hk : WrittenStmts sts ks) :
    .eof ∉ ks :=
  (hf.derives hk).no_eof (Rule.production_avoids_eof .program)

theorem kindsToEnd_of_kinds {ks : List Kind} (h : .eof ∉ ks) : kindsToEnd (ks.map (Token.mk · 1)) = ks := by
  have hall : ∀ t ∈ ks.map (Token.mk · 1), decide (t.kind ≠ .eof) = true := by
    intro t ht
    obtain ⟨kind, hk, rfl⟩ := List.mem_map.mp ht
    exact decide_eq_true fun he => h (he ▸ hk)
  rw [kindsToEnd, List.takeWhile_eq_self_iff.mpr hall, List.map_map]
  exact List.map_id ks

/-- A program that fits can be written out, as the documented grammar derives it. However it is written, reading the
tokens reports no error and gives the same program again, but for lines and identities. -/
theorem written_program_is_read {tree : List Stmt} (hfits : FitsStmts False tree) :
    (∃ tokens, WrittenStmts tree (kindsToEnd tokens)) ∧ ∀ (tokens : List Token) (nextId : NodeId),
      WrittenStmts tree (kindsToEnd tokens) → Derives (.rule .program) (kindsToEnd tokens) ∧
        (parseProgram tokens nextId).errors = [] ∧ AlikeStmts tree (parseProgram tokens nextId).tree := by
  refine ⟨?_, fun tokens nextId hk => ⟨.rule (hfits.derives hk), ?_⟩⟩
  · obtain ⟨ks, hk⟩ := hfits.exists_written
    exact ⟨_, (kindsToEnd_of_kinds (hk.no_eof hfits)).symm ▸ hk⟩
  · have hkinds : (Reader.ofTokens tokens nextId).kinds = kindsToEnd tokens ++ [] := (List.append_nil _).symm
    rcases Parse.finds_program (grammarFuel tokens) hk hfits _ hkinds with hfuel | ⟨tree', r, hr, htree, -, herrors⟩
    · exact absurd hfuel (Parse.program_has_fuel tokens nextId)
    · unfold parseProgram
      rw [hr]
      exact ⟨herrors, htree⟩

/-- An `else` behind a loop, a property that is assigned, and a lambda that is called. -/
theorem branch_is_read_back :
    let x : Expr := .var 0 ⟨"x", 0⟩
    let f : Name := ⟨"f", 0⟩
    let tree : List Stmt :=
      [.branch x (.loop x (.expr (.set x f (.unary .minus 0 x))))
        (some (.expr (.call (.lambda 0 ⟨[f], []⟩) 0 [.binary .plus 0 x x])))]
    let tokens := tokensOf (Item.ofSource "if (x) while (x) x.f = -x; else fun (f) \x7b\x7d (x + x);")
    FitsStmts False tree ∧ WrittenStmts tree (kindsToEnd tokens) ∧ (parseProgram tokens 0).errors = [] ∧
      AlikeStmts tree (parseProgram tokens 0).tree := by
  intro x f tree tokens
  have hfits : FitsStmts False tree := by
    simp [tree, x, f, FitsStmts, Stmt.Fits, Expr.Fits, FitsExprs, Routine.Fits, Stmt.isDeclaration, Stmt.endsOpen,
      Expr.rank, Mark.rank, Mark.isUnary, Rank.unary, Rank.call, Rank.primary, maxArity]
  have hkinds : kindsToEnd tokens = [.keyword .if, .mark .leftParen, .identifier "x", .mark .rightParen,
      .keyword .while, .mark .leftParen, .identifier "x", .mark .rightParen,
      .identifier "x", .mark .dot, .identifier "f", .mark .equal, .mark .minus, .identifier "x", .mark .semicolon,
      .keyword .else, .keyword .fun, .mark .leftParen, .identifier "f", .mark .rightParen,
      .mark .leftBrace, .mark .rightBrace, .mark .leftParen, .identifier "x", .mark .plus, .identifier "x",
      .mark .rightParen, .mark .semicolon] := by decide +kernel
  have hset : (Expr.set x f (.unary .minus 0 x)).Written [_, _, _, _, _, _] := ⟨[_], [_, _], rfl, rfl, [_], rfl, rfl⟩
  have hcall : (Expr.call (.lambda 0 ⟨[f], []⟩) 0 [.binary .plus 0 x x]).Written [_, _, _, _, _, _, _, _, _, _, _] :=
    ⟨[_, _, _, _, _, _], [_, _, _], rfl, ⟨[_, _, _, _, _], rfl, [_, _], rfl, .inl ⟨[], rfl, rfl⟩⟩, [_], [_], rfl, rfl, rfl⟩
  have hwritten : WrittenStmts tree (kindsToEnd tokens) := by
    rw [hkinds]
    refine ⟨_, [], (List.append_nil _).symm, ⟨[_], [_, _, _, _, _, _, _, _, _, _, _], _, rfl, rfl, ?_, ?_⟩, rfl⟩
    · exact ⟨[_], [_, _, _, _, _, _, _], rfl, rfl, [_, _, _, _, _, _], rfl, hset⟩
    · exact ⟨_, rfl, hcall⟩
  exact ⟨hfits, hwritten, ((written_program_is_read hfits).2 tokens 0 hwritten).2⟩

end Lox
