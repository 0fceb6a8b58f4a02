import Lox.Proofs.Scope.Levels
import Lox.Proofs.Text.Messages

/-!
# Warnings of unused variables

A variable of a local scope is warned of just if the table binds no occurrence to it.
-/

namespace Lox

open Resolution

/-- A superclass is read around the members of the class. -/
theorem Resolution.readSuperclass_walked {r r₁ : Resolution} {pos : Position} (h : Mirrors r.scopes pos.scopes)
    {className : Name} {superclass : Option Reference} {os : List Occurrence} {ns : List (Node × Position)}
    (he : (r.readSuperclass className superclass).errors = [])
    (hw : Walked (r.readSuperclass className superclass) r₁ [] os ns) :
    Walked r (r₁.closeSuperclass superclass) []
      ((superclass.map fun ref => (⟨ref.id, ref.name.text, pos.scopes⟩ : Occurrence)).toList ++ os)
      ((superclass.map fun ref => (Node.expr (.var ref.id ref.name), pos)).toList ++ ns) := by
  cases superclass with
  | none => exact hw
  | some ref =>
    have hd : Mirrors (r.reportIf (ref.name.text = className.text) ref.name.site .inheritsFromItself).scopes pos.scopes := by
      simpa using h
    have hv := readVariable_walked hd he
    have hr : Walked r _ [] _ [(.expr (.var ref.id ref.name), pos)] := ((reportIf_walked hv.errors).trans hv).cons rfl
    exact hr.trans hw.implicit

/-! ## The walk -/

-- Errors are never taken back: if the last part of a tree leaves none, then there were none before it. So the parts are
-- taken from the last one on.
mutual

theorem Expr.resolve_walked : ∀ (e : Expr) (ctx : Context) (pos : Position) {r : Resolution}, Mirrors r.scopes pos.scopes →
    (e.resolve ctx r).errors = [] → Walked r (e.resolve ctx r) [] (e.occurrences pos.scopes) (e.nodes pos)
  | .literal _, _, _, _, _, he => (Walked.refl he).cons rfl
  | .unary _ _ operand, ctx, pos, _, h, he => (operand.resolve_walked ctx pos h he).cons rfl
  | .binary _ _ left right, ctx, pos, _, h, he => by
    have hr := right.resolve_walked ctx pos (left.resolve_mirrors ctx h) he
    exact ((left.resolve_walked ctx pos h hr.errors).trans hr).cons rfl
  | .logical _ _ left right, ctx, pos, _, h, he => by
    have hr := right.resolve_walked ctx pos (left.resolve_mirrors ctx h) he
    exact ((left.resolve_walked ctx pos h hr.errors).trans hr).cons rfl
  | .group inner, ctx, pos, _, h, he => (inner.resolve_walked ctx pos h he).cons rfl
  | .var _ _, _, _, _, h, he => (readVariable_walked h he).cons rfl
  | .assign id name value, ctx, pos, r, h, he => by
    have he' : (value.resolve ctx r).errors = [] := by simpa [Expr.resolve] using he
    have hw := (value.resolve_walked ctx pos h he').trans (use_walked (value.resolve_mirrors ctx h) he' id name.text)
    simp only [List.append_nil] at hw
    exact hw.cons rfl
  | .call callee _ arguments, ctx, pos, _, h, he => by
    have ha := resolveExprs_walked arguments ctx pos (callee.resolve_mirrors ctx h) he
    exact ((callee.resolve_walked ctx pos h ha.errors).trans ha).cons rfl
  | .lambda _ routine, ctx, pos, _, h, he => (routine.resolve_walked (ctx.enter .function) (pos.enter .function) h he).cons rfl
  | .get object _, ctx, pos, _, h, he => (object.resolve_walked ctx pos h he).cons rfl
  | .set object _ value, ctx, pos, _, h, he => by
    have hv := value.resolve_walked ctx pos (object.resolve_mirrors ctx h) he
    exact ((object.resolve_walked ctx pos h hv.errors).trans hv).cons rfl
  | .this _ _, _, _, _, h, he => (readThis_walked h he).cons rfl
  | .super _ _ _, _, _, _, h, he => (readSuper_walked h he).cons rfl

theorem resolveExprs_walked : ∀ (es : List Expr) (ctx : Context) (pos : Position) {r : Resolution},
    Mirrors r.scopes pos.scopes → (resolveExprs es ctx r).errors = [] →
    Walked r (resolveExprs es ctx r) [] (occurrencesExprs es pos.scopes) (nodesExprs es pos)
  | [], _, _, _, _, he => .refl he
  | e :: es, ctx, pos, _, h, he => by
    have hr := resolveExprs_walked es ctx pos (e.resolve_mirrors ctx h) he
    exact (e.resolve_walked ctx pos h hr.errors).trans hr

theorem Stmt.resolve_walked : ∀ (st : Stmt) (ctx : Context) (pos : Position) {r : Resolution}, Mirrors r.scopes pos.scopes →
    (st.resolve ctx r).errors = [] →
    Walked r (st.resolve ctx r) st.declaredNames (st.occurrences pos.scopes) (st.nodes pos)
  | .expr e, ctx, pos, _, h, he => (e.resolve_walked ctx pos h he).cons rfl
  | .print e, ctx, pos, _, h, he => (e.resolve_walked ctx pos h he).cons rfl
  | .varDecl name none, _, _, _, _, he => (introduce_walked he).cons rfl
  | .varDecl name (some e), ctx, pos, r, h, he => by
    have he' : (e.resolve ctx (r.declare name)).errors = [] := by simpa [Stmt.resolve] using he
    have hv := e.resolve_walked ctx (pos.enterInitializer name.text) (declare_pending h name) he'
    have hw := ((declare_walked hv.errors).trans hv).trans (define_walked he' name)
    simp only [List.append_nil] at hw
    exact hw.cons rfl
  | .block body, ctx, pos, r, h, he => by
    have hm := openScope_mirrors (s := .ofBlock body) h rfl
    have hb := resolveStmts_walked body ctx (pos.inside (.ofBlock body)) hm (by simpa [Stmt.resolve] using he)
    exact hb.closed (by rw [h.length_eq]; rfl)
  | .branch condition thenBranch none, ctx, pos, _, h, he => by
    have ht := thenBranch.resolve_walked ctx pos (condition.resolve_mirrors ctx h) he
    exact ((condition.resolve_walked ctx pos h ht.errors).trans ht).cons rfl
  | .branch condition thenBranch (some elseBranch), ctx, pos, _, h, he => by
    have hc := condition.resolve_mirrors ctx h
    have hf := elseBranch.resolve_walked ctx (pos.declare thenBranch.declares) (thenBranch.resolve_mirrors ctx hc) he
    have ht := thenBranch.resolve_walked ctx pos hc hf.errors
    exact (((condition.resolve_walked ctx pos h ht.errors).trans ht).trans hf).cons rfl
  | .loop condition body, ctx, pos, _, h, he => by
    have hb := body.resolve_walked _ (pos.enter .loop) (condition.resolve_mirrors ctx h) he
    exact ((condition.resolve_walked ctx pos h hb.errors).trans hb).cons rfl
  | .funDecl name routine, ctx, pos, _, h, he => by
    have hr := routine.resolve_walked _ ((pos.declare [name.text]).enter .function) (introduce_mirrors h name) he
    exact ((introduce_walked hr.errors).trans hr).cons rfl
  | .returns _ _ none, _, _, _, _, he => (checkReturn_walked he).cons rfl
  | .returns _ _ (some e), ctx, pos, _, h, he => by
    have hv := e.resolve_walked ctx pos (by simpa [checkReturn] using h) he
    exact ((checkReturn_walked hv.errors).trans hv).cons rfl
  | .breaks _, _, _, _, _, he => (reportIf_walked he).cons rfl
  | .classDecl name superclass methods statics, ctx, pos, r, h, he => by
    let decl : Stmt := .classDecl name superclass methods statics
    let around := pos.declare [name.text]
    let members := around.derive decl superclass
    have hi : Mirrors (r.introduce name).scopes around.scopes := introduce_mirrors h name
    have hp : Mirrors ((r.introduce name).readSuperclass name superclass).scopes members.scopes :=
      readSuperclass_mirrors hi name superclass decl
    have hs := resolveStatics_mirrors statics { ctx with classKind := .ofSuperclass superclass, inStatic := true } hp
    have hm := resolveMethods_walked methods superclass _ (members.inside (.ofReceiver decl))
      (openImplicit_mirrors (s := .ofReceiver decl) hs rfl) (by simpa [Stmt.resolve] using he)
    have hs := resolveStatics_walked statics superclass _ members hp hm.errors
    have hc := readSuperclass_walked hi hs.errors (hs.trans hm.implicit)
    rw [Stmt.occurrences, Stmt.nodes, List.append_assoc, List.append_assoc]
    exact ((introduce_walked hc.errors).trans hc).cons rfl

theorem resolveStmts_walked : ∀ (sts : List Stmt) (ctx : Context) (pos : Position) {r : Resolution},
    Mirrors r.scopes pos.scopes → (resolveStmts sts ctx r).errors = [] →
    Walked r (resolveStmts sts ctx r) (declaredNamesBy sts) (occurrencesStmts sts pos.scopes) (nodesStmts sts pos)
  | [], _, _, _, _, he => .refl he
  | st :: sts, ctx, pos, _, h, he => by
    have hr := resolveStmts_walked sts ctx (pos.declare st.declares) (st.resolve_mirrors ctx h) he
    exact (st.resolve_walked ctx pos h hr.errors).trans hr

theorem Routine.resolve_walked : ∀ (routine : Routine) (ctx : Context) (pos : Position) {r : Resolution},
    Mirrors r.scopes pos.scopes → (routine.resolve ctx r).errors = [] →
    Walked r (routine.resolve ctx r) [] (routine.occurrences pos.scopes) (routine.nodes pos)
  | ⟨params, body⟩, ctx, pos, r, h, he => by
    have hb := resolveStmts_walked body ctx (pos.inside (.ofRoutine ⟨params, body⟩)) (parameters_mirrors h ⟨params, body⟩)
      (by simpa [Routine.resolve] using he)
    exact ((introduceAll_walked params hb.errors).trans hb).closed (by rw [h.length_eq]; rfl)

theorem Method.resolve_walked : ∀ (m : Method) (superclass : Option Reference) (isStatic : Bool) (body : BodyKind)
    (ctx : Context) (pos : Position) {r : Resolution}, Mirrors r.scopes pos.scopes → (m.resolve body ctx r).errors = [] →
    Walked r (m.resolve body ctx r) [] (m.occurrences pos.scopes) (m.nodes superclass isStatic pos)
  | ⟨name, isGetter, routine⟩, superclass, isStatic, body, ctx, pos, _, h, he =>
    routine.resolve_walked (ctx.enter body) (pos.enter (.member superclass isStatic ⟨name, isGetter, routine⟩)) h he

theorem resolveMethods_walked : ∀ (ms : List Method) (superclass : Option Reference) (ctx : Context) (pos : Position)
    {r : Resolution}, Mirrors r.scopes pos.scopes → (resolveMethods ms ctx r).errors = [] →
    Walked r (resolveMethods ms ctx r) [] (occurrencesMethods ms pos.scopes) (nodesMethods ms superclass false pos)
  | [], _, _, _, _, _, he => .refl he
  | m :: ms, superclass, ctx, pos, _, h, he => by
    have hr := resolveMethods_walked ms superclass ctx pos (m.resolve_mirrors m.bodyKind ctx h) he
    exact (m.resolve_walked superclass false m.bodyKind ctx pos h hr.errors).trans hr

theorem resolveStatics_walked : ∀ (ms : List Method) (superclass : Option Reference) (ctx : Context) (pos : Position)
    {r : Resolution}, Mirrors r.scopes pos.scopes → (resolveStatics ms ctx r).errors = [] →
    Walked r (resolveStatics ms ctx r) [] (occurrencesMethods ms pos.scopes) (nodesMethods ms superclass true pos)
  | [], _, _, _, _, _, he => .refl he
  | m :: ms, superclass, ctx, pos, _, h, he => by
    have hr := resolveStatics_walked ms superclass ctx pos (m.resolve_mirrors .function ctx h) he
    exact (m.resolve_walked superclass true .function ctx pos h hr.errors).trans hr

end

/-! ## The warnings of a program -/

/-- The table binds the occurrence to the variable of that name that the region declares. -/
structure BindingTable.Binds (table : BindingTable) (o : Occurrence) (s : Region) (x : String) : Prop where
  inside : o ∈ s.occurrences
  name : o.name = x
  /-- As many scopes out from the occurrence as its entry says is the region. -/
  depth : ∃ d, table.get? o.id = some d ∧ d + s.level + 1 = o.scopes.length

theorem analyze_warnings {source : String} {nextId : NodeId} {c : Checked} (h : (analyze source nextId).checked = some c) :
    (analyze source nextId).warnings = (resolveProgram c.program).warnings := by
  unfold analyze at h ⊢
  simp only at h ⊢
  split at h
  · split at h
    · rename_i hp hr
      cases h
      simp [hp, hr]
    · cases h
  · cases h

/-- A program without scope errors is warned of just those variables of its local scopes to which the table binds
no occurrence, and of no two in the same words. -/
theorem unused_warnings_are_exact {source : String} {nextId : NodeId} {c : Checked}
    (h : (analyze source nextId).checked = some c) :
    (∀ line x, ⟨line, x⟩ ∈ (analyze source nextId).warnings ↔ ∃ s ∈ programRegions c.program,
      (∃ name ∈ s.declared, name.text = x ∧ name.line = line) ∧
        ∀ o ∈ programOccurrences c.program, ¬ c.table.Binds o s x) ∧
      ((analyze source nextId).warnings.map Warning.text).Nodup := by
  obtain ⟨-, he, -⟩ := of_analyze h
  have hw : Walked {} (resolveProgram c.program) _ (programOccurrences c.program) (programNodes c.program) :=
    resolveStmts_walked c.program {} {} .nil he
  have ht : Resolution.Tidy {} := ⟨nofun, List.nodup_nil⟩
  rw [analyze_warnings h]
  refine ⟨fun line x => ?_, (hw.tidy ht).warnings.map Warning.text_injective⟩
  -- the table has the depth of every occurrence of the program, and so of those in the region
  have hbinds : ∀ s ∈ programRegions c.program, (∀ o ∈ programOccurrences c.program, ¬ c.table.Binds o s x) ↔
      ∀ o ∈ s.occurrences, ¬ o.BoundTo s.level x := by
    intro s hs
    obtain ⟨n, hn, hs⟩ := List.mem_filterMap.mp hs
    have hsub := hw.inside n hn s hs
    constructor
    · intro hall o ho hb
      exact hall o (hsub ho) ⟨ho, hb.1, by rw [Checked.table_get? h (hsub ho)]; exact hb.2⟩
    · intro hall o ho hb
      refine hall o hb.inside ⟨hb.name, ?_⟩
      rw [← Checked.table_get? h ho]
      exact hb.depth
  rw [hw.warned ht]
  simp only [List.not_mem_nil, false_or]
  constructor
  · rintro ⟨n, hn, s, hs, hd, hu⟩
    have hm : s ∈ programRegions c.program := List.mem_filterMap.mpr ⟨n, hn, hs⟩
    exact ⟨s, hm, hd, (hbinds s hm).mpr hu⟩
  · rintro ⟨s, hm, hd, hu⟩
    obtain ⟨n, hn, hs⟩ := List.mem_filterMap.mp hm
    exact ⟨n, hn, s, hs, hd, (hbinds s hm).mp hu⟩

/-- Only the parameter that no function reads is warned of. -/
theorem unused_warnings_of_closure :
    ∃ h : (analyze "fun f(a): fun(b): a;" 0).checked.isSome = true,
      (analyze "fun f(a): fun(b): a;" 0).warnings = [⟨1, "b"⟩] ∧
        (∀ line x, ⟨line, x⟩ ∈ (analyze "fun f(a): fun(b): a;" 0).warnings ↔
          ∃ s ∈ programRegions ((analyze "fun f(a): fun(b): a;" 0).checked.get h).program,
            (∃ name ∈ s.declared, name.text = x ∧ name.line = line) ∧
              ∀ o ∈ programOccurrences ((analyze "fun f(a): fun(b): a;" 0).checked.get h).program,
                ¬ ((analyze "fun f(a): fun(b): a;" 0).checked.get h).table.Binds o s x) ∧
          ((analyze "fun f(a): fun(b): a;" 0).warnings.map Warning.text).Nodup :=
  ⟨by decide +kernel, by decide +kernel, unused_warnings_are_exact (Option.some_get _).symm⟩

end Lox
