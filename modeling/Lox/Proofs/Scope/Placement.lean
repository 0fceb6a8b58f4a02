import Lox.Proofs.Source.Words
import Lox.Proofs.Scope.Table

/-!
# Where `this` and `super` stand

In a program without scope errors every `this` stands inside a scope of `this`, every `super`
inside a scope of `super` that lies directly around the scope of the nearest `this`, and no class is
its own superclass.
-/

namespace Lox

/-- The name of a variable, unlike `this` and `super`. -/
def Name.IsPlain (name : Name) : Prop := name.text ≠ "this" ∧ name.text ≠ "super"

/-- A class and its superclass. -/
def Name.Differ (cls parent : Name) : Prop := parent.text ≠ cls.text

namespace Occurrence

/-- `this` is bound, and `super` to the scope around that of `this`. -/
structure Placed (o : Occurrence) : Prop where
  this : o.name = "this" → ∃ d, o.depth? = some d
  super : o.name = "super" → ∃ d, o.scopes.depth? "this" = some d ∧ o.depth? = some (d + 1)

theorem placed_of_plain {id : NodeId} {name : Name} {scopes : Scopes} (h : name.IsPlain) :
    Placed ⟨id, name.text, scopes⟩ :=
  ⟨fun ht => absurd ht h.1, fun hs => absurd hs h.2⟩

end Occurrence

/-- The scopes of the class that the context is in. -/
def Context.Fits (ctx : Context) (scopes : Scopes) : Prop :=
  ctx.inStatic = false → ctx.classKind ≠ .none →
    ∃ d, scopes.depth? "this" = some d ∧ (ctx.classKind = .derived → scopes.depth? "super" = some (d + 1))

namespace Scopes

theorem depth?_declare {names : List String} {name : String} (h : name ∉ names) :
    ∀ scopes : Scopes, depth? (scopes.declare names) name = depth? scopes name
  | [] => rfl
  | s :: outer => by simp [declare, depth?, List.findIdx?_cons, h]

theorem depth?_enterInitializer {x name : String} (h : name ≠ x) :
    ∀ scopes : Scopes, depth? (scopes.enterInitializer x) name = depth? scopes name
  | [] => rfl
  | s :: outer => by simp [enterInitializer, depth?, List.findIdx?_cons, h]

end Scopes

namespace Context.Fits

variable {ctx : Context} {scopes : Scopes}

theorem global (body : BodyKind) : Fits { body } [] := fun _ h => absurd rfl h

/-- Only the depths of `this` and `super` count. -/
theorem of_depth {scopes' : Scopes} (h : Fits ctx scopes) (ht : scopes'.depth? "this" = scopes.depth? "this")
    (hs : scopes'.depth? "super" = scopes.depth? "super") : Fits ctx scopes' := by
  unfold Fits; rw [ht, hs]; exact h

theorem declare (h : Fits ctx scopes) {names : List String} (hn : ∀ x ∈ names, x ≠ "this" ∧ x ≠ "super") :
    Fits ctx (scopes.declare names) :=
  h.of_depth (Scopes.depth?_declare (fun hm => (hn _ hm).1 rfl) _) (Scopes.depth?_declare (fun hm => (hn _ hm).2 rfl) _)

theorem enterInitializer (h : Fits ctx scopes) {name : Name} (hn : name.IsPlain) :
    Fits ctx (scopes.enterInitializer name.text) :=
  h.of_depth (Scopes.depth?_enterInitializer hn.1.symm _) (Scopes.depth?_enterInitializer hn.2.symm _)

theorem inside (h : Fits ctx scopes) {s : LocalScope} (hn : ∀ x ∈ s.names, x ≠ "this" ∧ x ≠ "super") :
    Fits ctx (s :: scopes) := by
  intro hs hk
  obtain ⟨d, ht, hd⟩ := h hs hk
  refine ⟨d + 1, ?_, fun hk => ?_⟩
  · rw [Scopes.depth?_cons_of_not_mem fun hm => (hn _ hm).1 rfl, ht]; rfl
  · rw [Scopes.depth?_cons_of_not_mem fun hm => (hn _ hm).2 rfl, hd hk]; rfl

theorem receiver (decl : Stmt) (superclass : Option Reference) (h : ctx.classKind = .ofSuperclass superclass) :
    Fits ctx (.ofReceiver decl :: scopes.derive decl superclass) := by
  refine fun _ _ => ⟨0, Scopes.depth?_cons_of_mem (by simp [LocalScope.ofReceiver]) _, fun hk => ?_⟩
  cases superclass with
  | none => rw [h] at hk; cases hk
  | some ref =>
    rw [Scopes.depth?_cons_of_not_mem (by simp [LocalScope.ofReceiver])]
    simp [Scopes.derive, Scopes.depth?, LocalScope.ofParent, List.findIdx?_cons]

end Context.Fits

section
variable {K : Name → Name → Prop}

theorem Stmt.Proper.declares_plain : ∀ {st : Stmt}, st.Proper Name.IsPlain K →
    ∀ x ∈ st.declares, x ≠ "this" ∧ x ≠ "super"
  | .varDecl _ none, h, _, .head _ => h
  | .varDecl _ (some _), h, _, .head _ => h.1
  | .funDecl _ _, h, _, .head _ => h.1
  | .classDecl _ _ _ _, h, _, .head _ => h.1
  | .branch _ _ none, h, _, hx => h.2.1.declares_plain _ hx
  | .branch _ _ (some _), h, x, hx => by
    rcases List.mem_append.mp hx with hx | hx
    · exact h.2.2.1.declares_plain x hx
    · exact h.2.1.1.declares_plain x hx
  | .loop _ _, h, _, hx => h.2.1.declares_plain _ hx
  | .expr _, _, _, hx => nomatch hx
  | .print _, _, _, hx => nomatch hx
  | .block _, _, _, hx => nomatch hx
  | .returns _ _ _, _, _, hx => nomatch hx
  | .breaks _, _, _, hx => nomatch hx

end

/-- What the resolution has accepted: a tree without self-inheritance, all of whose occurrences are
placed. -/
structure Accepted (proper : Prop) (os : List Occurrence) : Prop where
  proper : proper
  placed : ∀ o ∈ os, o.Placed

namespace Accepted

variable {p q : Prop} {os ps : List Occurrence}

theorem and (h : Accepted p os) (h' : Accepted q ps) : Accepted (p ∧ q) (os ++ ps) :=
  ⟨⟨h.proper, h'.proper⟩, fun o ho => (List.mem_append.mp ho).elim (h.placed o) (h'.placed o)⟩

theorem imp (h : Accepted p os) (hq : p → q) : Accepted q os := ⟨hq h.proper, h.placed⟩

theorem one {o : Occurrence} (hp : p) (h : o.Placed) : Accepted p [o] := ⟨hp, by simpa using h⟩

theorem none (hp : p) : Accepted p [] := ⟨hp, nofun⟩

end Accepted

open Resolution

namespace Resolution

variable {r : Resolution} {ctx : Context} {scopes : Scopes}

theorem readThis_placed (hf : ctx.Fits scopes) {id : NodeId} {line : Nat} (he : (r.readThis ctx id line).errors = []) :
    Occurrence.Placed ⟨id, "this", scopes⟩ := by
  obtain ⟨hk, hs, -⟩ := of_readThis he
  obtain ⟨d, ht, -⟩ := hf hs hk
  exact ⟨fun _ => ⟨d, ht⟩, fun h => absurd (show "this" = "super" from h) (by decide)⟩

theorem readSuper_placed (hf : ctx.Fits scopes) {id : NodeId} {line : Nat} (he : (r.readSuper ctx id line).errors = []) :
    Occurrence.Placed ⟨id, "super", scopes⟩ := by
  obtain ⟨hk, hs, -⟩ := of_readSuper he
  obtain ⟨d, ht, hd⟩ := hf hs (by simp [hk])
  exact ⟨fun h => absurd (show "super" = "this" from h) (by decide), fun _ => ⟨d, ht, hd hk⟩⟩

theorem readSuperclass_accepted (scopes : Scopes) {className : Name} {superclass : Option Reference}
    (hp : ∀ ref ∈ superclass, ref.name.IsPlain) (he : (r.readSuperclass className superclass).errors = []) :
    Accepted (∀ ref ∈ superclass, ref.name.IsPlain ∧ Name.Differ className ref.name)
      (superclass.map fun ref => (⟨ref.id, ref.name.text, scopes⟩ : Occurrence)).toList := by
  cases superclass with
  | none => exact .none nofun
  | some ref =>
    have hv : ((r.reportIf (ref.name.text = className.text) ref.name.site .inheritsFromItself).readVariable
        ref.id ref.name).errors = [] := he
    have hd := (of_reportIf (of_reportIf (by simpa [readVariable] using hv)).2).1
    refine .one ?_ (Occurrence.placed_of_plain (hp ref rfl))
    intro _ h
    cases h
    exact ⟨hp ref rfl, by simpa [Name.Differ] using hd⟩

end Resolution

mutual

theorem Expr.resolve_accepted : ∀ (e : Expr) (ctx : Context) {r : Resolution} {scopes : Scopes},
    Mirrors r.scopes scopes → ctx.Fits scopes → e.Proper Name.IsPlain ⊤ → (e.resolve ctx r).errors = [] →
    Accepted (e.Proper Name.IsPlain Name.Differ) (e.occurrences scopes)
  | .literal _, _, _, _, _, _, _, _ => .none trivial
  | .unary _ _ operand, ctx, _, _, hm, hf, hp, he => (operand.resolve_accepted ctx hm hf hp.2 he).imp (⟨hp.1, ·⟩)
  | .binary _ _ left right, ctx, _, _, hm, hf, hp, he => by
    have hml := left.resolve_mirrors ctx hm
    have hr := right.resolve_accepted ctx hml hf hp.2.2 he
    have hl := left.resolve_accepted ctx hm hf hp.2.1 (right.resolve_enters ctx hml he).errors
    exact (hl.and hr).imp (⟨hp.1, ·⟩)
  | .logical _ _ left right, ctx, _, _, hm, hf, hp, he => by
    have hml := left.resolve_mirrors ctx hm
    have hr := right.resolve_accepted ctx hml hf hp.2 he
    exact (left.resolve_accepted ctx hm hf hp.1 (right.resolve_enters ctx hml he).errors).and hr
  | .group inner, ctx, _, _, hm, hf, hp, he => inner.resolve_accepted ctx hm hf hp he
  | .var _ _, _, _, _, _, _, hp, _ => .one hp (Occurrence.placed_of_plain hp)
  | .assign _ _ value, ctx, _, _, hm, hf, hp, he => by
    have hv := value.resolve_accepted ctx hm hf hp.2 (by simpa [Expr.resolve] using he)
    exact (hv.and (.one hp.1 (Occurrence.placed_of_plain hp.1))).imp And.symm
  | .call callee _ arguments, ctx, _, _, hm, hf, hp, he => by
    have hmc := callee.resolve_mirrors ctx hm
    have ha := resolveExprs_accepted arguments ctx hmc hf hp.2 he
    exact (callee.resolve_accepted ctx hm hf hp.1 (resolveExprs_enters arguments ctx hmc he).errors).and ha
  | .lambda _ routine, ctx, _, _, hm, hf, hp, he => routine.resolve_accepted (ctx.enter .function) hm hf hp he
  | .get object _, ctx, _, _, hm, hf, hp, he => object.resolve_accepted ctx hm hf hp he
  | .set object _ value, ctx, _, _, hm, hf, hp, he => by
    have hmo := object.resolve_mirrors ctx hm
    have hv := value.resolve_accepted ctx hmo hf hp.2 he
    exact (object.resolve_accepted ctx hm hf hp.1 (value.resolve_enters ctx hmo he).errors).and hv
  | .this _ _, _, _, _, _, hf, _, he => .one trivial (readThis_placed hf he)
  | .super _ _ _, _, _, _, _, hf, _, he => .one trivial (readSuper_placed hf he)

theorem resolveExprs_accepted : ∀ (es : List Expr) (ctx : Context) {r : Resolution} {scopes : Scopes},
    Mirrors r.scopes scopes → ctx.Fits scopes → ProperExprs Name.IsPlain ⊤ es → (resolveExprs es ctx r).errors = [] →
    Accepted (ProperExprs Name.IsPlain Name.Differ es) (occurrencesExprs es scopes)
  | [], _, _, _, _, _, _, _ => .none trivial
  | e :: es, ctx, _, _, hm, hf, hp, he => by
    have hme := e.resolve_mirrors ctx hm
    have hr := resolveExprs_accepted es ctx hme hf hp.2 he
    exact (e.resolve_accepted ctx hm hf hp.1 (resolveExprs_enters es ctx hme he).errors).and hr

theorem Stmt.resolve_accepted : ∀ (st : Stmt) (ctx : Context) {r : Resolution} {scopes : Scopes},
    Mirrors r.scopes scopes → ctx.Fits scopes → st.Proper Name.IsPlain ⊤ → (st.resolve ctx r).errors = [] →
    Accepted (st.Proper Name.IsPlain Name.Differ) (st.occurrences scopes)
  | .expr e, ctx, _, _, hm, hf, hp, he => e.resolve_accepted ctx hm hf hp he
  | .print e, ctx, _, _, hm, hf, hp, he => e.resolve_accepted ctx hm hf hp he
  | .varDecl _ none, _, _, _, _, _, hp, _ => .none hp
  | .varDecl name (some e), ctx, _, _, hm, hf, hp, he => by
    have hd := declare_pending hm name
    exact (e.resolve_accepted ctx hd (hf.enterInitializer hp.1) hp.2 (by simpa [Stmt.resolve] using he)).imp (⟨hp.1, ·⟩)
  | .block body, ctx, _, _, hm, hf, hp, he =>
    resolveStmts_accepted body ctx (openScope_mirrors (s := .ofBlock body) hm rfl) (hf.inside nofun) hp
      (by simpa [Stmt.resolve] using he)
  | .branch condition thenBranch none, ctx, _, _, hm, hf, hp, he => by
    have hmc := condition.resolve_mirrors ctx hm
    have ht := thenBranch.resolve_accepted ctx hmc hf hp.2.1 he
    have hc := condition.resolve_accepted ctx hm hf hp.1 (thenBranch.resolve_enters ctx hmc he).errors
    exact (hc.and ht).imp fun h => ⟨h.1, h.2, hp.2.2⟩
  | .branch condition thenBranch (some elseBranch), ctx, _, scopes, hm, hf, hp, he => by
    have hmc := condition.resolve_mirrors ctx hm
    have hmt := thenBranch.resolve_mirrors ctx hmc
    have hff : ctx.Fits (scopes.declare thenBranch.declares) := hf.declare hp.2.1.1.declares_plain
    have hl := elseBranch.resolve_accepted ctx hmt hff hp.2.2.1 he
    have het := (elseBranch.resolve_enters ctx hmt he).errors
    have ht := thenBranch.resolve_accepted ctx hmc hf hp.2.1.1 het
    have hc := condition.resolve_accepted ctx hm hf hp.1 (thenBranch.resolve_enters ctx hmc het).errors
    exact ((hc.and ht).and hl).imp fun h => ⟨h.1.1, ⟨h.1.2, hp.2.1.2⟩, h.2, hp.2.2.2⟩
  | .loop condition body, ctx, _, _, hm, hf, hp, he => by
    have hmc := condition.resolve_mirrors ctx hm
    have hb := body.resolve_accepted { ctx with inLoop := true } hmc hf hp.2.1 he
    have hc := condition.resolve_accepted ctx hm hf hp.1 (body.resolve_enters _ hmc he).errors
    exact (hc.and hb).imp fun h => ⟨h.1, h.2, hp.2.2⟩
  | .funDecl name routine, ctx, _, _, hm, hf, hp, he => by
    have hd : ∀ x ∈ [name.text], x ≠ "this" ∧ x ≠ "super" := by simpa using show name.text ≠ "this" ∧ name.text ≠ "super" from hp.1
    exact (routine.resolve_accepted (ctx.enter .function) (introduce_mirrors hm name) (hf.declare hd) hp.2 he).imp (⟨hp.1, ·⟩)
  | .returns _ _ none, _, _, _, _, _, _, _ => .none trivial
  | .returns _ _ (some e), ctx, _, _, hm, hf, hp, he => e.resolve_accepted ctx (by simpa [checkReturn] using hm) hf hp he
  | .breaks _, _, _, _, _, _, _, _ => .none trivial
  | .classDecl name superclass methods statics, ctx, r, scopes, hm, hf, hp, he => by
    let decl : Stmt := .classDecl name superclass methods statics
    obtain ⟨hn, hsup, hpm, hps⟩ := hp
    have hi := introduce_mirrors hm name
    have hms := readSuperclass_mirrors hi name superclass decl
    let inside : Context := { ctx with classKind := .ofSuperclass superclass }
    let entered := resolveStatics statics { inside with inStatic := true } ((r.introduce name).readSuperclass name superclass)
    have hmm : Mirrors (entered.openImplicit "this").scopes _ := openImplicit_mirrors (s := .ofReceiver decl)
      (resolveStatics_mirrors statics { inside with inStatic := true } hms) rfl
    have hem : (resolveMethods methods { inside with inStatic := false } (entered.openImplicit "this")).errors = [] := by
      simpa [Stmt.resolve, inside] using he
    have hes : entered.errors = [] := (resolveMethods_enters methods { inside with inStatic := false } hmm hem).errors
    have hec := (resolveStatics_enters statics { inside with inStatic := true } hms hes).errors
    have hm' := resolveMethods_accepted methods { inside with inStatic := false } hmm
      (.receiver decl superclass rfl) hpm hem
    have hs' := resolveStatics_accepted statics { inside with inStatic := true } hms (fun h => nomatch h) hps hes
    have hc := readSuperclass_accepted (scopes.declare [name.text]) (fun ref hr => (hsup ref hr).1) hec
    exact ((hc.and hs').and hm').imp fun h => ⟨hn, h.1.1, h.2, h.1.2⟩

theorem resolveStmts_accepted : ∀ (sts : List Stmt) (ctx : Context) {r : Resolution} {scopes : Scopes},
    Mirrors r.scopes scopes → ctx.Fits scopes → ProperStmts Name.IsPlain ⊤ sts → (resolveStmts sts ctx r).errors = [] →
    Accepted (ProperStmts Name.IsPlain Name.Differ sts) (occurrencesStmts sts scopes)
  | [], _, _, _, _, _, _, _ => .none trivial
  | st :: sts, ctx, _, _, hm, hf, hp, he => by
    have hmt := st.resolve_mirrors ctx hm
    have hr := resolveStmts_accepted sts ctx hmt (hf.declare hp.1.declares_plain) hp.2 he
    exact (st.resolve_accepted ctx hm hf hp.1 (resolveStmts_enters sts ctx hmt he).errors).and hr

theorem Routine.resolve_accepted : ∀ (routine : Routine) (ctx : Context) {r : Resolution} {scopes : Scopes},
    Mirrors r.scopes scopes → ctx.Fits scopes → routine.Proper Name.IsPlain ⊤ → (routine.resolve ctx r).errors = [] →
    Accepted (routine.Proper Name.IsPlain Name.Differ) (routine.occurrences scopes)
  | ⟨params, body⟩, ctx, _, _, hm, hf, hp, he => by
    have hn : ∀ x ∈ (LocalScope.ofRoutine ⟨params, body⟩).names, x ≠ "this" ∧ x ≠ "super" := by
      simpa [LocalScope.ofRoutine, Name.IsPlain] using hp.1
    have hb := resolveStmts_accepted body ctx (parameters_mirrors hm ⟨params, body⟩) (hf.inside hn) hp.2
      (by simpa [Routine.resolve] using he)
    exact hb.imp (⟨hp.1, ·⟩)

theorem Method.resolve_accepted : ∀ (m : Method) (body : BodyKind) (ctx : Context) {r : Resolution} {scopes : Scopes},
    Mirrors r.scopes scopes → ctx.Fits scopes → m.Proper Name.IsPlain ⊤ → (m.resolve body ctx r).errors = [] →
    Accepted (m.Proper Name.IsPlain Name.Differ) (m.occurrences scopes)
  | ⟨_, _, routine⟩, body, ctx, _, _, hm, hf, hp, he => (routine.resolve_accepted (ctx.enter body) hm hf hp.2 he).imp (⟨hp.1, ·⟩)

theorem resolveMethods_accepted : ∀ (ms : List Method) (ctx : Context) {r : Resolution} {scopes : Scopes},
    Mirrors r.scopes scopes → ctx.Fits scopes → ProperMethods Name.IsPlain ⊤ ms → (resolveMethods ms ctx r).errors = [] →
    Accepted (ProperMethods Name.IsPlain Name.Differ ms) (occurrencesMethods ms scopes)
  | [], _, _, _, _, _, _, _ => .none trivial
  | m :: ms, ctx, _, _, hm, hf, hp, he => by
    have hmm := m.resolve_mirrors m.bodyKind ctx hm
    have hr := resolveMethods_accepted ms ctx hmm hf hp.2 he
    exact (m.resolve_accepted m.bodyKind ctx hm hf hp.1 (resolveMethods_enters ms ctx hmm he).errors).and hr

theorem resolveStatics_accepted : ∀ (ms : List Method) (ctx : Context) {r : Resolution} {scopes : Scopes},
    Mirrors r.scopes scopes → ctx.Fits scopes → ProperMethods Name.IsPlain ⊤ ms → (resolveStatics ms ctx r).errors = [] →
    Accepted (ProperMethods Name.IsPlain Name.Differ ms) (occurrencesMethods ms scopes)
  | [], _, _, _, _, _, _, _ => .none trivial
  | m :: ms, ctx, _, _, hm, hf, hp, he => by
    have hmm := m.resolve_mirrors .function ctx hm
    have hr := resolveStatics_accepted ms ctx hmm hf hp.2 he
    exact (m.resolve_accepted .function ctx hm hf hp.1 (resolveStatics_enters ms ctx hmm he).errors).and hr

end

/-- In a checked program no variable is named `this` or `super`, and everything is in its place. -/
theorem Checked.accepted {source : String} {nextId : NodeId} {c : Checked} (h : (analyze source nextId).checked = some c) :
    Accepted (ProperStmts Name.IsPlain Name.Differ c.program) (programOccurrences c.program) := by
  obtain ⟨hc, he, -⟩ := of_analyze h
  have hnames : ∀ t ∈ tokensOf (Item.ofSource source), ∀ text, t.kind = .identifier text →
      Name.IsPlain { text, line := t.line } :=
    fun t ht text hk => ⟨tokensOf_name_ne_keyword ht hk .this, tokensOf_name_ne_keyword ht hk .super⟩
  have hp := (parseProgram_read hnames nextId).2
  rw [← hc] at hp
  have hm : Mirrors ({} : Resolution).scopes [] := .nil
  exact resolveStmts_accepted c.program {} hm (.global .program) hp he

end Lox
