import Lox.Proofs.Grammar.Taken

/-!
# Reading long forms of statements

The same for lists of expressions, functions, classes and statements. A `for` that is written out is a loop, which may have a
block around it and one in it.
-/

namespace Lox

open Token (Kind)

theorem Ends.of_next {rank : Nat} {rest : List Token} {kind : Kind} (h : next? rest = some kind) (hk : kind.strength? = none) :
    Ends rank (rest.map Token.kind) := by
  rw [next?, ← List.head?_map] at h
  exact .of_head h hk

theorem Stmt.returns_bare (groups : Bool) (form : ReturnForm) (line : Nat) (found : Option Expr) :
    (Stmt.returns form line found).bare groups = .returns form line (found.map (Expr.bare groups)) := by
  cases found <;> rfl

theorem Parse.bodyThen_bare (groups : Bool) (body : Stmt) (increment : Option Expr) :
    (bodyThen body increment).bare groups = bodyThen (body.bare groups) (increment.map (Expr.bare groups)) := by
  cases increment <;> rfl

theorem Parse.forLoop_bare (groups : Bool) (first : Option Stmt) (condition increment : Option Expr) (body : Stmt) :
    (forLoop first condition increment body).bare groups = forLoop (first.map (Stmt.bare groups))
      (condition.map (Expr.bare groups)) (increment.map (Expr.bare groups)) (body.bare groups) := by
  have hloop : (Stmt.loop (condition.getD (.literal (.bool true))) (bodyThen body increment)).bare groups =
      .loop ((condition.map (Expr.bare groups)).getD (.literal (.bool true)))
        (bodyThen (body.bare groups) (increment.map (Expr.bare groups))) := by
    rw [Stmt.bare, bodyThen_bare]
    cases condition <;> rfl
  cases first with
  | none => exact hloop
  | some first => exact congrArg (fun st => Stmt.block [first.bare groups, st]) hloop

namespace Passage.Taken

open Parse

variable {groups : Bool} {e e' : Expr} {es : List Expr} {st : Stmt} {sts : List Stmt} {ts ts' tc tp tb tm : List Token}
  {t t' t'' u : Token} {x : String} {xs : List Name}

/-! ## Arguments and parameters -/

theorem noArguments : (Passage.arguments []).Taken groups [] := ⟨fun _ => rfl, fun _ _ _ h => absurd rfl h⟩

theorem lastArgument (h : (Passage.expression e).Taken groups ts) : (Passage.arguments [e]).Taken groups ts := by
  refine ⟨nofun, fun fuel rest count _ hlen hrest => ?_⟩
  cases fuel with
  | zero => exact .exhausted
  | succ fuel =>
    rw [Parse.argumentList]
    refine (takes_checkCount hlen).silent fun _ _ => (h fuel rest (.of_next hrest rfl)).whole fun e' he => ?_
    exact takes_no (by simp [hrest]) (.pure (congrArg (· :: []) he.bare))

theorem argument (h : (Passage.expression e).Taken groups ts) (ht : t.kind = .mark .comma)
    (hs : (Passage.arguments (e' :: es)).Taken groups ts') : (Passage.arguments (e :: e' :: es)).Taken groups (ts ++ t :: ts') := by
  refine ⟨nofun, fun fuel rest count _ hlen hrest => ?_⟩
  cases fuel with
  | zero => exact .exhausted
  | succ fuel =>
    have hlen : count + 1 + (e' :: es).length ≤ maxArity := by simpa +arith using hlen
    rw [Parse.argumentList]
    refine (takes_checkCount (Nat.lt_of_lt_of_le (by simp +arith) hlen)).silent fun _ _ => ?_
    refine (h.before ht rfl fuel (ts' ++ rest)).bind fun first hfirst => takes_yes ht ?_
    exact (hs.2 fuel rest (count + 1) (List.cons_ne_nil _ _) hlen hrest).map fun _ hmore => congrArg₂ List.cons hfirst.bare hmore

theorem noNames : (Passage.names []).Taken groups [] := ⟨fun _ => rfl, fun _ _ _ h => absurd rfl h⟩

theorem lastName (ht : t.kind = .identifier x) : (Passage.names [⟨x, t.line⟩]).Taken groups [t] := by
  refine ⟨nofun, fun fuel rest count _ hlen hrest => ?_⟩
  cases fuel with
  | zero => exact .exhausted
  | succ fuel =>
    rw [Parse.parameterList]
    exact (takes_checkCount hlen).silent fun _ _ => takes_name ht (takes_no hrest (.pure rfl))

theorem name {y : Name} (ht : t.kind = .identifier x) (ht' : t'.kind = .mark .comma)
    (hs : (Passage.names (y :: xs)).Taken groups ts) : (Passage.names (⟨x, t.line⟩ :: y :: xs)).Taken groups (t :: t' :: ts) := by
  refine ⟨nofun, fun fuel rest count _ hlen hrest => ?_⟩
  cases fuel with
  | zero => exact .exhausted
  | succ fuel =>
    have hlen : count + 1 + (y :: xs).length ≤ maxArity := by simpa +arith using hlen
    rw [Parse.parameterList]
    refine (takes_checkCount (Nat.lt_of_lt_of_le (by simp +arith) hlen)).silent fun _ _ => takes_name ht (takes_yes ht' ?_)
    exact (hs.2 fuel rest (count + 1) (List.cons_ne_nil _ _) hlen hrest).map fun _ hmore => congrArg (_ :: ·) hmore

theorem parameters (hlen : xs.length ≤ maxArity) (hopens : (Passage.names xs).Begins ts) (h : (Passage.names xs).Taken groups ts)
    (ht : t.kind = .mark .rightParen) : (Passage.parameters xs).Taken groups (ts ++ [t]) := by
  intro fuel rest
  have hlist : Takes (unlessAt .rightParen (parameterList fuel 0)) (fun found => found.getD [] = xs) ts ([t] ++ rest) := by
    by_cases hxs : xs = []
    · obtain rfl := h.1 hxs
      exact (takes_absent (next?_cons ht)).imp fun found hfound => hfound ▸ hxs.symm
    · obtain ⟨text, hnext⟩ := hopens hxs
      have hnext : next? (ts ++ ([t] ++ rest)) = some (.identifier text) := next?_append_of_some hnext
      have hcomma : next? ([t] ++ rest) ≠ some (.mark .comma) := by
        intro hc
        cases ht.symm.trans (Option.some.inj hc)
      have hlen : 0 + xs.length ≤ maxArity := by rwa [Nat.zero_add]
      refine (takes_present (by rw [hnext]; exact nofun) (h.2 fuel _ 0 hxs hlen hcomma)).imp ?_
      rintro found ⟨names, rfl, hnames⟩
      exact hnames
  rw [Parse.parameters]
  exact hlist.bind fun found hfound => takes_mark ht (.pure hfound)

/-! ## Functions -/

theorem blockBody {closed : Bool} (ht : t.kind = .mark .leftBrace) (h : (Passage.block sts).Taken groups ts) :
    (Passage.body closed sts).Taken groups (t :: ts) := by
  intro fuel rest _
  cases fuel with
  | zero => exact .exhausted
  | succ fuel =>
    rw [Parse.routineBody]
    exact takes_line (takes_yes ht (h fuel rest))

theorem shortBody {closed : Bool} {ending : List Token} (ht : t.kind = .mark .colon) (h : (Passage.expression e).Taken groups ts)
    (hending : ending.map Token.kind = endKinds closed) :
    (Passage.body closed [.returns .expressionBody t.line (some e)]).Taken groups (t :: (ts ++ ending)) := by
  intro fuel rest hrest
  cases fuel with
  | zero => exact .exhausted
  | succ fuel =>
    have hends : Ends Rank.assignment ((ending ++ rest).map Token.kind) := by
      cases closed with
      | true =>
        rw [List.map_append, hending]
        exact .of_none rfl
      | false =>
        obtain rfl := List.map_eq_nil_iff.mp hending
        exact hrest rfl rfl
    rw [Parse.routineBody]
    refine takes_line (takes_other ht rfl (takes_yes ht ((h fuel _ hends).bind fun value hvalue => ?_)))
    refine (takes_endBody closed hending).whole fun _ _ => .pure ?_
    exact congrArg (fun e => [Stmt.returns .expressionBody t.line (some e)]) hvalue.bare

theorem lambda (ht : t.kind = .keyword .fun) (ht' : t'.kind = .mark .leftParen) (hp : (Passage.parameters xs).Taken groups tp)
    (hb : (Passage.body false sts).Taken groups tb) :
    (Passage.primary (.lambda t.line ⟨xs, sts⟩)).Taken groups (t :: t' :: (tp ++ tb)) := by
  intro fuel rest hrest
  cases fuel with
  | zero => exact .exhausted
  | succ fuel =>
    rw [Parse.primary]
    refine (takes_noAtom (.inr (next?_cons ht))).silent fun found hf => ?_
    subst hf
    refine takes_line (takes_other ht rfl (takes_yes ht (takes_mark ht' ((hp fuel (tb ++ rest)).bind fun xs' hxs => ?_))))
    subst hxs
    have hends : isShortBody sts = true → Ends Rank.assignment (rest.map Token.kind) := fun hs => by
      have hopen : (Expr.lambda t.line ⟨xs', sts⟩).isOpen = true := hs
      rwa [Expr.limit, hopen] at hrest
    refine (hb fuel rest fun _ => hends).whole fun sts' hsts => .pure (.of_not_target ?_ rfl)
    exact congrArg (fun sts => Expr.lambda t.line ⟨xs', sts⟩) hsts

theorem block (h : (Passage.declarations sts).Taken groups ts) (ht : t.kind = .mark .rightBrace) :
    (Passage.block sts).Taken groups (ts ++ [t]) := by
  intro fuel rest
  cases fuel with
  | zero => exact .exhausted
  | succ fuel =>
    rw [Parse.block]
    exact (h.2.1 fuel _ (next?_cons ht)).bind fun sts' hsts => takes_mark ht (.pure hsts)

/-! ## Declarations -/

theorem noDeclarations : (Passage.declarations []).Taken groups [] := by
  refine ⟨fun rest h => h, fun fuel rest hrest => ?_, fun fuel => ?_⟩
  · cases fuel with
    | zero => exact .exhausted
    | succ fuel =>
      rw [Parse.declarations]
      exact takes_notBefore hrest (.pure rfl)
  · cases fuel with
    | zero => exact .exhausted
    | succ fuel =>
      rw [Parse.program]
      exact takes_peek (.pure rfl)

theorem declarations (hopens : (Passage.declaration st).Begins ts) (h : (Passage.declaration st).Taken groups ts)
    (hs : (Passage.declarations sts).Taken groups ts') : (Passage.declarations (st :: sts)).Taken groups (ts ++ ts') := by
  obtain ⟨kind, hnext, hne, hbrace⟩ := hopens
  obtain ⟨helse, hdeclarations, hprogram⟩ := hs
  refine ⟨fun rest _ => ?_, fun fuel rest hrest => ?_, fun fuel => ?_⟩
  · rw [List.append_assoc, next?_append_of_some hnext]
    exact fun he => hne (Option.some.inj he)
  · cases fuel with
    | zero => exact .exhausted
    | succ fuel =>
      rw [Parse.declarations]
      refine takes_before (by rw [List.append_assoc]; exact next?_append_of_some hnext) hbrace ?_
      refine (h fuel _ (helse rest (by simp [hrest]))).bind fun first hfirst => ?_
      refine (hdeclarations fuel rest hrest).map fun more hmore => ?_
      obtain ⟨st', rfl, hst⟩ := hfirst
      exact congrArg₂ List.cons hst hmore
  · cases fuel with
    | zero => exact .exhausted
    | succ fuel =>
      rw [Parse.program]
      refine takes_peek ?_
      rw [List.append_assoc, next?_append_of_some hnext]
      refine (h fuel _ (helse [] (by decide))).bind fun first hfirst => (hprogram fuel).map fun more hmore => ?_
      obtain ⟨st', rfl, hst⟩ := hfirst
      exact congrArg₂ List.cons hst hmore

theorem variableDeclaration (ht : t.kind = .keyword .var) (h : (Passage.variable st).Taken groups ts) :
    (Passage.declaration st).Taken groups (t :: ts) := by
  intro fuel rest _
  cases fuel with
  | zero => exact .exhausted
  | succ fuel =>
    have hfun : NoFunctionDeclaration (t :: (ts ++ rest)) := .of_ne (ht ▸ nofun)
    rw [Parse.declaration]
    exact takes_recover (takes_other ht rfl (takes_noFunctionDeclaration hfun (takes_yes ht (h fuel rest))))

theorem functionDeclaration (ht : t.kind = .keyword .fun) (ht' : t'.kind = .identifier x) (ht'' : t''.kind = .mark .leftParen)
    (hp : (Passage.parameters xs).Taken groups tp) (hb : (Passage.body true sts).Taken groups tb) :
    (Passage.declaration (.funDecl ⟨x, t'.line⟩ ⟨xs, sts⟩)).Taken groups (t :: t' :: t'' :: (tp ++ tb)) := by
  intro fuel rest _
  cases fuel with
  | zero => exact .exhausted
  | succ fuel =>
    rw [Parse.declaration]
    refine takes_recover (takes_other ht rfl (takes_functionDeclaration ht ht' (takes_skip ?_)))
    refine takes_name ht' (takes_mark ht'' ((hp fuel (tb ++ rest)).bind fun xs' hxs => ?_))
    subst hxs
    refine (hb fuel rest (by simp)).whole fun sts' hsts => .pure ?_
    exact congrArg (fun sts => Stmt.funDecl ⟨x, t'.line⟩ ⟨xs', sts⟩) hsts

theorem statementDeclaration {dangling : Bool} (hopens : Opens Kind.opensStatement ts)
    (h : (Passage.statement dangling st).Taken groups ts) : (Passage.declaration st).Taken groups ts := by
  intro fuel rest hrest
  cases fuel with
  | zero => exact .exhausted
  | succ fuel =>
    rw [Parse.declaration]
    exact takes_recover (takes_no (hopens.next_ne rfl) (takes_noFunctionDeclaration hopens.unnamed
      (takes_no (hopens.next_ne rfl) (h fuel rest fun _ => hrest))))

/-! ## Classes -/

theorem noSuperclass : (Passage.superclass none).Taken groups [] := fun _ hrest => takes_no hrest (.pure rfl)

theorem superclass (ht : t.kind = .mark .colon) (ht' : t'.kind = .identifier x) :
    (Passage.superclass (some ⟨0, ⟨x, t'.line⟩⟩)).Taken groups [t, t'] := fun _ _ =>
  takes_yes ht (takes_name ht' (takes_freshId fun _ => .pure rfl))

theorem classDeclaration {ref : Option Reference} {methods statics : List Method} {tr : List Token} (ht : t.kind = .keyword .klass)
    (ht' : t'.kind = .identifier x) (hr : (Passage.superclass ref).Taken groups tr) (ht'' : t''.kind = .mark .leftBrace)
    (hm : (Passage.members methods statics).Taken groups tm) (hu : u.kind = .mark .rightBrace) :
    (Passage.declaration (.classDecl ⟨x, t'.line⟩ ref methods statics)).Taken groups
      (t :: t' :: (tr ++ t'' :: (tm ++ [u]))) := by
  intro fuel rest _
  cases fuel with
  | zero => exact .exhausted
  | succ fuel =>
    rw [Parse.declaration]
    refine takes_recover (takes_yes ht ?_)
    cases fuel with
    | zero => exact .exhausted
    | succ fuel =>
      have hcolon : next? (t'' :: (tm ++ [u]) ++ rest) ≠ some (.mark .colon) := by
        intro hc
        cases ht''.symm.trans (Option.some.inj hc)
      rw [Parse.classDeclaration]
      refine takes_name ht' ((hr _ hcolon).bind fun ref' href => takes_mark ht'' ?_)
      refine (hm fuel _ (next?_cons hu)).bind fun found hfound => ?_
      obtain ⟨methods', statics'⟩ := found
      refine takes_mark hu (.pure ?_)
      rw [Stmt.bare, Stmt.bare, href, hfound.1, hfound.2]

theorem noMembers : (Passage.members [] []).Taken groups [] := by
  intro fuel rest hrest
  cases fuel with
  | zero => exact .exhausted
  | succ fuel =>
    rw [Parse.members]
    exact takes_notBefore hrest (.pure ⟨rfl, rfl⟩)

theorem instanceMember {m : Method} {methods statics : List Method} (hopens : (Passage.method m).Begins ts)
    (h : (Passage.method m).Taken groups ts) (hs : (Passage.members methods statics).Taken groups ts') :
    (Passage.members (m :: methods) statics).Taken groups (ts ++ ts') := by
  intro fuel rest hrest
  obtain ⟨text, hnext⟩ := hopens
  have hnext : next? (ts ++ ts' ++ rest) = some (.identifier text) := by
    rw [List.append_assoc]
    exact next?_append_of_some hnext
  cases fuel with
  | zero => exact .exhausted
  | succ fuel =>
    rw [Parse.members]
    refine takes_before hnext (by simp) ((takes_notAccepted (by rw [hnext]; simp)).silent fun isStatic hstatic => ?_)
    refine (h fuel (ts' ++ rest)).bind fun m' hm => (hs fuel rest hrest).whole ?_
    rintro ⟨methods', statics'⟩ ⟨hmethods, hstatics⟩
    subst hstatic
    exact .pure ⟨congrArg₂ List.cons hm hmethods, hstatics⟩

theorem staticMember {m : Method} {methods statics : List Method} (ht : t.kind = .keyword .klass)
    (h : (Passage.method m).Taken groups ts) (hs : (Passage.members methods statics).Taken groups ts') :
    (Passage.members methods (m :: statics)).Taken groups (t :: (ts ++ ts')) := by
  intro fuel rest hrest
  cases fuel with
  | zero => exact .exhausted
  | succ fuel =>
    rw [Parse.members]
    refine takes_before (next?_cons ht) (by decide) ((takes_accepted ht).head fun isStatic hstatic => ?_)
    refine (h fuel (ts' ++ rest)).bind fun m' hm => (hs fuel rest hrest).whole ?_
    rintro ⟨methods', statics'⟩ ⟨hmethods, hstatics⟩
    subst hstatic
    exact .pure ⟨hmethods, congrArg₂ List.cons hm hstatics⟩

theorem getter (ht : t.kind = .identifier x) (hb : (Passage.body true sts).Taken groups tb)
    (hnext : ∀ rest, next? (tb ++ rest) ≠ some (.mark .leftParen)) :
    (Passage.method ⟨⟨x, t.line⟩, true, ⟨[], sts⟩⟩).Taken groups (t :: tb) := by
  intro fuel rest
  cases fuel with
  | zero => exact .exhausted
  | succ fuel =>
    rw [Parse.method]
    refine takes_name ht ((takes_ifNotAccepted (hnext rest)).silent fun found hfound => ?_)
    subst hfound
    refine (hb fuel rest (by simp)).whole fun sts' hsts => .pure ?_
    exact congrArg (fun sts => Method.mk ⟨x, t.line⟩ true ⟨[], sts⟩) hsts

theorem method (ht : t.kind = .identifier x) (ht' : t'.kind = .mark .leftParen) (hp : (Passage.parameters xs).Taken groups tp)
    (hb : (Passage.body true sts).Taken groups tb) :
    (Passage.method ⟨⟨x, t.line⟩, false, ⟨xs, sts⟩⟩).Taken groups (t :: t' :: (tp ++ tb)) := by
  intro fuel rest
  cases fuel with
  | zero => exact .exhausted
  | succ fuel =>
    rw [Parse.method]
    have hfound : Takes (ifAccepted (.mark .leftParen) (Parse.parameters fuel)) (· = some xs) (t' :: tp) (tb ++ rest) :=
      (takes_ifAccepted ht' (hp fuel (tb ++ rest))).imp fun found hfound => by
        obtain ⟨xs', hfound, hxs⟩ := hfound
        exact hxs ▸ hfound
    refine takes_name ht (hfound.bind fun found hfound => ?_)
    subst hfound
    refine (hb fuel rest (by simp)).whole fun sts' hsts => .pure ?_
    exact congrArg (fun sts => Method.mk ⟨x, t.line⟩ false ⟨xs, sts⟩) hsts

/-! ## Simple statements -/

theorem declared (ht : t.kind = .identifier x) (ht' : t'.kind = .mark .semicolon) :
    (Passage.variable (.varDecl ⟨x, t.line⟩ none)).Taken groups [t, t'] := by
  intro fuel rest
  cases fuel with
  | zero => exact .exhausted
  | succ fuel =>
    have hequal : next? ([t'] ++ rest) ≠ some (.mark .equal) := by
      rw [List.singleton_append, next?_cons ht']
      exact nofun
    rw [Parse.varDeclaration]
    refine takes_name ht ((takes_ifNotAccepted hequal).silent fun found hfound => takes_mark ht' (.pure ?_))
    subst hfound
    rfl

theorem initialized (ht : t.kind = .identifier x) (ht' : t'.kind = .mark .equal) (h : (Passage.expression e).Taken groups ts)
    (ht'' : t''.kind = .mark .semicolon) :
    (Passage.variable (.varDecl ⟨x, t.line⟩ (some e))).Taken groups (t :: t' :: (ts ++ [t''])) := by
  intro fuel rest
  cases fuel with
  | zero => exact .exhausted
  | succ fuel =>
    rw [Parse.varDeclaration]
    have hfound : Takes (ifAccepted (.mark .equal) (Parse.expression fuel)) (fun found => ∃ e', found = some e' ∧ e.Resembles groups e')
        (t' :: ts) ([t''] ++ rest) := takes_ifAccepted ht' (h.before ht'' rfl fuel rest)
    refine takes_name ht (hfound.bind fun found hfound => ?_)
    obtain ⟨e', rfl, he⟩ := hfound
    exact takes_mark ht'' (.pure (congrArg (fun e => Stmt.varDecl ⟨x, t.line⟩ (some e)) he.bare))

theorem expressionStatement (h : (Passage.expression e).Taken groups ts) (ht : t.kind = .mark .semicolon) (fuel : Nat)
    (rest : List Token) :
    Takes (Parse.expressionStatement fuel) (fun st => st.bare groups = (Stmt.expr e).bare groups) (ts ++ [t]) rest := by
  cases fuel with
  | zero => exact .exhausted
  | succ fuel =>
    rw [Parse.expressionStatement]
    exact (h.before ht rfl fuel rest).bind fun e' he => takes_mark ht (.pure (congrArg Stmt.expr he.bare))

/-- An expression that may be left out. -/
theorem takes_optional {found : Option Expr} {m : Mark} (hopens : (Passage.optional found).Begins ts)
    (h : (Passage.optional found).Taken groups ts) (ht : t.kind = .mark m) (hm : (Kind.mark m).strength? = none)
    (hne : (Kind.mark m).opensExpression = false) (fuel : Nat) (rest : List Token) :
    Takes (unlessAt m (Parse.expression fuel)) (fun found' => found'.map (Expr.bare groups) = found.map (Expr.bare groups)) ts
      (t :: rest) := by
  cases found with
  | none =>
    obtain rfl := h
    exact (takes_absent (next?_cons ht)).imp fun found hfound => hfound ▸ rfl
  | some e =>
    have hopens : Opens Kind.opensExpression ts := hopens nofun
    refine (takes_present (hopens.next_ne hne) (h fuel _ (.of_none (ht ▸ hm)))).imp ?_
    rintro found ⟨e', rfl, he⟩
    exact congrArg some he.bare

variable {dangling : Bool}

theorem expr (hopens : Opens Kind.opensExpression ts) (h : (Passage.expression e).Taken groups ts)
    (ht : t.kind = .mark .semicolon) : (Passage.statement dangling (.expr e)).Taken groups (ts ++ [t]) := by
  intro fuel rest _
  have hopens : Opens Kind.opensExpression (ts ++ [t]) := hopens.append
  cases fuel with
  | zero => exact .exhausted
  | succ fuel =>
    rw [Parse.statement]
    refine takes_read fun line => takes_no (hopens.next_ne rfl) (takes_no (hopens.next_ne rfl) ?_)
    refine takes_no (hopens.next_ne rfl) (takes_no (hopens.next_ne rfl) (takes_no (hopens.next_ne rfl) ?_))
    exact takes_no (hopens.next_ne rfl) (takes_no (hopens.next_ne rfl) (h.expressionStatement ht fuel rest))

theorem print (ht : t.kind = .keyword .print) (h : (Passage.expression e).Taken groups ts) (ht' : t'.kind = .mark .semicolon) :
    (Passage.statement dangling (.print e)).Taken groups (t :: (ts ++ [t'])) := by
  intro fuel rest _
  cases fuel with
  | zero => exact .exhausted
  | succ fuel =>
    rw [Parse.statement]
    refine takes_line (takes_other ht rfl (takes_other ht rfl (takes_other ht rfl (takes_other ht rfl ?_))))
    refine takes_other ht rfl (takes_other ht rfl (takes_yes ht ((h.before ht' rfl fuel rest).bind fun e' he => ?_)))
    exact takes_mark ht' (.pure (congrArg Stmt.print he.bare))

theorem blockStatement (ht : t.kind = .mark .leftBrace) (h : (Passage.block sts).Taken groups ts) :
    (Passage.statement dangling (.block sts)).Taken groups (t :: ts) := by
  intro fuel rest _
  cases fuel with
  | zero => exact .exhausted
  | succ fuel =>
    rw [Parse.statement]
    refine takes_line (takes_other ht rfl (takes_other ht rfl (takes_other ht rfl (takes_other ht rfl ?_))))
    exact takes_other ht rfl (takes_yes ht ((h fuel rest).map fun sts' hsts => congrArg Stmt.block hsts))

theorem returns {found : Option Expr} (ht : t.kind = .keyword .return) (hopens : (Passage.optional found).Begins ts)
    (h : (Passage.optional found).Taken groups ts) (ht' : t'.kind = .mark .semicolon) :
    (Passage.statement dangling (.returns .keyword t.line found)).Taken groups (t :: (ts ++ [t'])) := by
  intro fuel rest _
  cases fuel with
  | zero => exact .exhausted
  | succ fuel =>
    rw [Parse.statement]
    refine takes_line (takes_other ht rfl (takes_other ht rfl (takes_other ht rfl (takes_yes ht ?_))))
    refine (takes_optional hopens h ht' rfl rfl fuel rest).bind fun found' hfound => takes_mark ht' (.pure ?_)
    rw [Stmt.returns_bare, Stmt.returns_bare, hfound]

theorem breaks (ht : t.kind = .keyword .break) (ht' : t'.kind = .mark .semicolon) :
    (Passage.statement dangling (.breaks t.line)).Taken groups [t, t'] := by
  intro fuel rest _
  cases fuel with
  | zero => exact .exhausted
  | succ fuel =>
    rw [Parse.statement]
    refine takes_line (takes_other ht rfl (takes_other ht rfl (takes_other ht rfl (takes_other ht rfl (takes_yes ht ?_)))))
    exact takes_mark ht' (.pure rfl)

/-! ## Branches -/

section
variable {condition : Expr} {other : Stmt}

theorem branch (ht : t.kind = .keyword .if) (ht' : t'.kind = .mark .leftParen) (hc : (Passage.expression condition).Taken groups tc)
    (ht'' : t''.kind = .mark .rightParen) (h : (Passage.statement dangling st).Taken groups ts) :
    (Passage.statement true (.branch condition st none)).Taken groups (t :: t' :: (tc ++ t'' :: ts)) := by
  intro fuel rest hrest
  cases fuel with
  | zero => exact .exhausted
  | succ fuel =>
    rw [Parse.statement]
    refine takes_line (takes_other ht rfl (takes_yes ht ?_))
    cases fuel with
    | zero => exact .exhausted
    | succ fuel =>
      rw [Parse.ifStatement]
      refine takes_mark ht' ((hc.before ht'' rfl fuel (ts ++ rest)).bind fun c' hc => takes_mark ht'' ?_)
      refine (h fuel rest fun _ => hrest rfl).whole fun st' hst => ?_
      refine (takes_ifNotAccepted (hrest rfl)).silent fun found hfound => .pure ?_
      subst hfound
      exact congrArg₂ (Stmt.branch · · none) hc.bare hst

theorem branches (ht : t.kind = .keyword .if) (ht' : t'.kind = .mark .leftParen) (hc : (Passage.expression condition).Taken groups tc)
    (ht'' : t''.kind = .mark .rightParen) (h : (Passage.statement false st).Taken groups ts) (hu : u.kind = .keyword .else)
    (ho : (Passage.statement dangling other).Taken groups ts') :
    (Passage.statement dangling (.branch condition st (some other))).Taken groups (t :: t' :: (tc ++ t'' :: (ts ++ u :: ts'))) := by
  intro fuel rest hrest
  cases fuel with
  | zero => exact .exhausted
  | succ fuel =>
    rw [Parse.statement]
    refine takes_line (takes_other ht rfl (takes_yes ht ?_))
    cases fuel with
    | zero => exact .exhausted
    | succ fuel =>
      rw [Parse.ifStatement]
      refine takes_mark ht' ((hc.before ht'' rfl fuel _).bind fun c' hc => takes_mark ht'' ?_)
      refine (h fuel (u :: ts' ++ rest) (by simp)).bind fun st' hst => ?_
      refine (takes_ifAccepted hu (ho fuel rest hrest)).whole fun found hfound => .pure ?_
      obtain ⟨other', rfl, hother⟩ := hfound
      rw [Stmt.bare, Stmt.bare, hc.bare, hst, hother]

/-! ## Loops -/

theorem loop (ht : t.kind = .keyword .while) (ht' : t'.kind = .mark .leftParen) (hc : (Passage.expression condition).Taken groups tc)
    (ht'' : t''.kind = .mark .rightParen) (h : (Passage.statement dangling st).Taken groups ts) :
    (Passage.statement dangling (.loop condition st)).Taken groups (t :: t' :: (tc ++ t'' :: ts)) := by
  intro fuel rest hrest
  cases fuel with
  | zero => exact .exhausted
  | succ fuel =>
    rw [Parse.statement]
    refine takes_line (takes_other ht rfl (takes_other ht rfl (takes_yes ht (takes_mark ht' ?_))))
    refine (hc.before ht'' rfl fuel (ts ++ rest)).bind fun c' hc => takes_mark ht'' ?_
    exact (h fuel rest hrest).map fun st' hst => congrArg₂ Stmt.loop hc.bare hst

end

section
variable {first : Option Stmt} {condition increment : Option Expr} {ti tn : List Token}

theorem noInitializer (ht : t.kind = .mark .semicolon) : (Passage.initializer none).Taken groups [t] := by
  refine ⟨fun fuel rest => ?_, nofun⟩
  cases fuel with
  | zero => exact .exhausted
  | succ fuel =>
    rw [Parse.forInitializer]
    exact takes_yes ht (.pure rfl)

theorem variableInitializer (ht : t.kind = .keyword .var) (h : (Passage.variable st).Taken groups ts) :
    (Passage.initializer (some st)).Taken groups (t :: ts) := by
  refine ⟨fun fuel rest => ?_, ?_⟩
  · cases fuel with
    | zero => exact .exhausted
    | succ fuel =>
      rw [Parse.forInitializer]
      exact takes_other ht rfl (takes_yes ht ((h fuel rest).map fun st' hst => congrArg some hst))
  · rintro _ ⟨⟩
    exact variableDeclaration ht h

theorem exprInitializer (hopens : Opens Kind.opensExpression ts) (h : (Passage.expression e).Taken groups ts)
    (ht : t.kind = .mark .semicolon) : (Passage.initializer (some (.expr e))).Taken groups (ts ++ [t]) := by
  have hopens' : Opens Kind.opensExpression (ts ++ [t]) := hopens.append
  refine ⟨fun fuel rest => ?_, ?_⟩
  · cases fuel with
    | zero => exact .exhausted
    | succ fuel =>
      rw [Parse.forInitializer]
      refine takes_no (hopens'.next_ne rfl) (takes_no (hopens'.next_ne rfl) ?_)
      exact (h.expressionStatement ht fuel rest).map fun st' hst => congrArg some hst
  · rintro _ ⟨⟩
    have hstatement : (Passage.statement false (.expr e)).Taken groups (ts ++ [t]) := expr hopens h ht
    exact statementDeclaration (hopens'.mono Token.Kind.opensStatement_of_expression) hstatement

/-- A `for` statement as it is written. -/
theorem forLoop (ht : t.kind = .keyword .for) (ht' : t'.kind = .mark .leftParen) (hi : (Passage.initializer first).Taken groups ti)
    (hco : (Passage.optional condition).Begins tc) (hc : (Passage.optional condition).Taken groups tc)
    (ht'' : t''.kind = .mark .semicolon) (hno : (Passage.optional increment).Begins tn)
    (hn : (Passage.optional increment).Taken groups tn) (hu : u.kind = .mark .rightParen)
    (h : (Passage.statement dangling st).Taken groups ts) :
    (Passage.statement dangling (Parse.forLoop first condition increment st)).Taken groups
      (t :: t' :: (ti ++ (tc ++ t'' :: (tn ++ u :: ts)))) := by
  intro fuel rest hrest
  cases fuel with
  | zero => exact .exhausted
  | succ fuel =>
    rw [Parse.statement]
    refine takes_line (takes_yes ht ?_)
    cases fuel with
    | zero => exact .exhausted
    | succ fuel =>
      rw [Parse.forStatement]
      refine takes_mark ht' ((hi.1 fuel _).bind fun first' hfirst => ?_)
      refine (takes_optional hco hc ht'' rfl rfl fuel _).bind fun condition' hcondition => takes_mark ht'' ?_
      refine (takes_optional hno hn hu rfl rfl fuel _).bind fun increment' hincrement => takes_mark hu ?_
      refine (h fuel rest hrest).whole fun st' hst => .pure ?_
      rw [Parse.forLoop_bare, Parse.forLoop_bare, hfirst, hcondition, hincrement, hst]

/-! ### Written out -/

theorem written_condition (c : Choice) (hc : (Passage.optional condition).Taken groups tc) :
    (Passage.expression (condition.getD (.literal (.bool true)))).Taken groups (writtenCondition c condition tc) := by
  cases condition with
  | none =>
    have htrue : (Passage.primary (.literal (.bool true))).Taken groups [c.put (.keyword .true)] :=
      of_atom fun _ => takes_literal rfl
    have hcall := suffixed htrue (fun _ _ hm => nomatch hm) suffixEnd
    exact (hcall.operand_of_call (Nat.zero_le _)).plain
  | some condition => exact hc

theorem written_body (c : Choice) (hno : (Passage.optional increment).Begins tn) (hn : (Passage.optional increment).Taken groups tn)
    (hs : Opens Kind.opensStatement ts) (h : (Passage.statement dangling st).Taken groups ts) :
    (Passage.statement dangling (bodyThen st increment)).Taken groups (writtenBody c increment tn ts) := by
  cases increment with
  | none => exact h
  | some e =>
    have hopens : Opens Kind.opensExpression tn := hno nofun
    have hstep : (Passage.statement false (.expr e)).Taken groups (tn ++ [c.put (.mark .semicolon)]) := expr hopens hn rfl
    have hopens : Opens Kind.opensStatement (tn ++ [c.put (.mark .semicolon)]) :=
      (hopens.mono Token.Kind.opensStatement_of_expression).append
    have hlast := declarations hopens.declaration (statementDeclaration hopens hstep) noDeclarations
    have hall := declarations hs.declaration (statementDeclaration hs h) hlast
    have hblock := block (t := c.put (.mark .rightBrace)) hall rfl
    have hbody : (Passage.statement dangling (.block _)).Taken groups _ := blockStatement (t := c.put (.mark .leftBrace)) rfl hblock
    simpa [writtenBody, bodyThen] using hbody

/-- The loop that a `for` statement stands for. -/
theorem forLoop_written (c : Choice) (hio : (Passage.initializer first).Begins ti) (hi : (Passage.initializer first).Taken groups ti)
    (hc : (Passage.optional condition).Taken groups tc) (hno : (Passage.optional increment).Begins tn)
    (hn : (Passage.optional increment).Taken groups tn) (hs : Opens Kind.opensStatement ts)
    (h : (Passage.statement dangling st).Taken groups ts) :
    (Passage.statement dangling (Parse.forLoop first condition increment st)).Taken groups
      (writtenLoop c first ti (c.put (.keyword .while) :: c.put (.mark .leftParen) ::
        (writtenCondition c condition tc ++ c.put (.mark .rightParen) :: writtenBody c increment tn ts))) := by
  have hloop : (Passage.statement dangling (.loop _ _)).Taken groups (c.put (.keyword .while) :: c.put (.mark .leftParen) ::
      (writtenCondition c condition tc ++ c.put (.mark .rightParen) :: writtenBody c increment tn ts)) :=
    loop rfl rfl (written_condition c hc) rfl (written_body c hno hn hs h)
  cases first with
  | none => exact hloop
  | some first =>
    have hopens : Opens Kind.opensStatement (c.put (.keyword .while) :: c.put (.mark .leftParen) ::
      (writtenCondition c condition tc ++ c.put (.mark .rightParen) :: writtenBody c increment tn ts)) := .single rfl nofun
    have hlast := declarations hopens.declaration (statementDeclaration hopens hloop) noDeclarations
    have hall := declarations (hio nofun) (hi.2 first rfl) hlast
    have hblock := block (t := c.put (.mark .rightBrace)) hall rfl
    have hall : (Passage.statement dangling (.block _)).Taken groups _ := blockStatement (t := c.put (.mark .leftBrace)) rfl hblock
    simpa [writtenLoop, Parse.forLoop] using hall

end

end Passage.Taken

theorem Assignment.level_of_combine {mark op : Mark} (h : ofMark? mark = some (.combine op)) :
    ∃ level, Connective.ofKind? (.mark op) = some (level, .binary op) := by
  cases mark <;> cases h <;> exact ⟨_, rfl⟩

theorem Leading.level_of_increment {mark op : Mark} (h : ofMark? mark = some (.increment op)) :
    ∃ level, Connective.ofKind? (.mark op) = some (level, .binary op) := by
  cases mark <;> cases h <;> exact ⟨_, rfl⟩

/-- Whatever is written out, the passage is read. -/
theorem Unfolds.taken {loops : Bool} {φ : Passage} {cs : List Choice} {ts : List Token} (h : Unfolds loops φ cs ts) :
    φ.Taken loops ts := by
  induction h with
  | plain _ ih => exact .plain ih
  | @assign c _ form _ _ _ _ _ _ _ hc hm _ _ he iht iho =>
    unfold Assignment.written
    split
    · rename_i op long hlong
      obtain ⟨level, hop⟩ := Assignment.level_of_combine hm
      obtain rfl : loops = false := by simpa using (Bool.and_eq_true_iff.mp hlong).2
      exact .assign_written hop iht iho he
    · exact .assign hc hm iht iho he
  | operators hlevel _ _ ihl ihs => exact .operators hlevel ihl ihs
  | strongest _ ih => exact .strongest ih
  | chainEnd => exact .chainEnd
  | operator hop hclosed _ _ ihr ihs => exact .operator hop hclosed ihr ihs
  | leading hc hm _ ih => exact .leading hc hm ih
  | step hc hm _ he ih =>
    unfold stepWritten
    split
    · rename_i hlong
      obtain ⟨level, hop⟩ := Leading.level_of_increment hm
      obtain rfl : loops = false := by simpa using (Bool.and_eq_true_iff.mp hlong).2
      exact .step_written hop ih he
    · exact .step hc hm ih he
  | called _ ih => exact .called ih
  | suffixed hh _ ihh ihs => exact .suffixed ihh (fun _ _ hm => hh.not_leading hm) ihs
  | suffixEnd => exact .suffixEnd
  | invoked hc hclosed hlen ha hd _ iha ihs => exact .invoked hc hclosed hlen iha ha.begins hd ihs
  | got hc hclosed hd _ ih => exact .got hc hclosed hd ih
  | noArguments => exact .noArguments
  | lastArgument _ ih => exact .lastArgument ih
  | argument _ hc _ ih ihs => exact .argument ih hc ihs
  | literal hc => exact .of_atom fun _ => Parse.takes_literal hc
  | this hc => exact .of_atom fun _ => Parse.takes_this hc
  | super hc hd hf => exact .of_atom fun _ => Parse.takes_super hc hd hf
  | var hc => exact .of_atom fun _ => Parse.takes_variable hc
  | group hc _ hd ih => exact .group hc ih hd
  | lambda hc hd _ _ ihp ihb => exact .lambda hc hd ihp ihb
  | noNames => exact .noNames
  | lastName hc => exact .lastName hc
  | name hc hd _ ih => exact .name hc hd ih
  | parameters hlen hs hc ih => exact .parameters hlen hs.begins ih hc
  | blockBody hc _ ih => exact .blockBody hc ih
  | shortBody hc _ hending ih => exact .shortBody hc ih (by rw [List.map_map]; exact hending)
  | block _ hc ih => exact .block ih hc
  | noDeclarations => exact .noDeclarations
  | declarations hd _ ih ihs => exact .declarations hd.begins ih ihs
  | variableDeclaration hc _ ih => exact .variableDeclaration hc ih
  | functionDeclaration hc hd hf _ _ ihp ihb => exact .functionDeclaration hc hd hf ihp ihb
  | classDeclaration hc hd _ hf _ hg ihr ihm => exact .classDeclaration hc hd ihr hf ihm hg
  | statementDeclaration hs ih => exact .statementDeclaration hs.begins ih
  | noSuperclass => exact .noSuperclass
  | superclass hc hd => exact .superclass hc hd
  | noMembers => exact .noMembers
  | instanceMember hm _ ihm ihs => exact .instanceMember hm.begins ihm ihs
  | staticMember hk _ _ ihm ihs => exact .staticMember hk ihm ihs
  | getter hc hb ihb => exact .getter hc ihb fun _ => hb.no_parenthesis
  | method hc hd _ _ ihp ihb => exact .method hc hd ihp ihb
  | declared hc hd => exact .declared hc hd
  | initialized hc hd _ hf ih => exact .initialized hc hd ih hf
  | expr he hc ih => exact .expr he.begins ih hc
  | print hc _ hd ih => exact .print hc ih hd
  | blockStatement hc _ ih => exact .blockStatement hc ih
  | returns hc ho hd ih => exact .returns hc ho.begins ih hd
  | breaks hc hd => exact .breaks hc hd
  | branch hc hd _ hf _ ihc ih => exact .branch hc hd ihc hf ih
  | branches hc hd _ hf _ hg _ ihc ih iho => exact .branches hc hd ihc hf ih hg iho
  | loop hc hd _ hf _ ihc ih => exact .loop hc hd ihc hf ih
  | forLoop hc hd hi hco hf hno hg hs ihi ihc ihn ih =>
    split
    · exact .forLoop_written _ hi.begins ihi ihc hno.begins ihn hs.begins ih
    · exact .forLoop hc hd ihi hco.begins ihc hf hno.begins ihn hg ih
  | absent => rfl
  | present _ ih => exact ih
  | noInitializer hc => exact .noInitializer hc
  | variableInitializer hc _ ih => exact .variableInitializer hc ih
  | exprInitializer he hc ih => exact .exprInitializer he.begins ih hc

end Lox
