import Lox.Proofs.Scope.Levels

/-!
# Scopes in which more is used

Resolving an expression leaves the open scopes as they are, but for the variables that it uses. What is found in scopes where
more is used is the same.
-/

namespace Lox

/-- The same variable, which may be used by now. -/
structure Local.Marked (entry entry' : Local) : Prop where
  isDefined : entry'.isDefined = entry.isDefined
  line : entry'.line = entry.line
  isUsed : entry.isUsed = true → entry'.isUsed = true

def Scope.Marked (scope scope' : Scope) : Prop :=
  List.Forall₂ (fun e e' => e'.1 = e.1 ∧ e.2.Marked e'.2) scope.entries scope'.entries

def Marked (scopes scopes' : List Scope) : Prop := List.Forall₂ Scope.Marked scopes scopes'

theorem forall₂_trans {α : Type} {R : α → α → Prop} (hR : ∀ a b c, R a b → R b c → R a c) :
    ∀ {as bs cs : List α}, List.Forall₂ R as bs → List.Forall₂ R bs cs → List.Forall₂ R as cs
  | _, _, _, .nil, .nil => .nil
  | _, _, _, .cons hab h, .cons hbc h' => .cons (hR _ _ _ hab hbc) (forall₂_trans hR h h')

namespace Local.Marked

variable {e e' e'' : Local}

theorem refl (e : Local) : e.Marked e := ⟨rfl, rfl, id⟩

theorem trans (h : e.Marked e') (h' : e'.Marked e'') : e.Marked e'' :=
  ⟨h'.isDefined.trans h.isDefined, h'.line.trans h.line, fun hu => h'.isUsed (h.isUsed hu)⟩

theorem use (e : Local) : e.Marked { e with isUsed := true } := ⟨rfl, rfl, fun _ => rfl⟩

end Local.Marked

namespace Scope.Marked

variable {scope scope' scope'' : Scope}

theorem refl (scope : Scope) : scope.Marked scope := List.forall₂_same.mpr fun e _ => ⟨rfl, .refl e.2⟩

theorem trans (h : scope.Marked scope') (h' : scope'.Marked scope'') : scope.Marked scope'' :=
  forall₂_trans (fun _ _ _ h h' => ⟨h'.1.trans h.1, h.2.trans h'.2⟩) h h'

theorem get? (x : String) : ∀ {scope scope' : Scope}, scope.Marked scope' → Option.Rel Local.Marked (scope.get? x) (scope'.get? x)
  | [], [], .nil => .none
  | (n, e) :: scope, (n', e') :: scope', .cons ⟨hn, he⟩ h => by
    obtain rfl : n' = n := hn
    simp only [Dict.get?]
    split
    · exact .some he
    · exact get? x h

theorem contains (h : scope.Marked scope') (x : String) : scope'.contains x = scope.contains x := by
  unfold Dict.contains
  have hg := h.get? x
  cases hs : scope.get? x <;> cases hs' : scope'.get? x <;> simp_all

theorem insert {e e' : Local} (x : String) (he : e.Marked e') :
    ∀ {scope scope' : Scope}, scope.Marked scope' → Scope.Marked (scope.insert x e) (scope'.insert x e')
  | [], [], .nil => .cons ⟨rfl, he⟩ .nil
  | (n, a) :: scope, (n', a') :: scope', .cons ⟨hn, ha⟩ h => by
    obtain rfl : n' = n := hn
    by_cases hx : n' = x
    · simp only [Dict.insert, hx, ↓reduceIte]
      exact .cons ⟨rfl, he⟩ h
    · simp only [Dict.insert, hx, ↓reduceIte]
      exact .cons ⟨rfl, ha⟩ (insert x he h)

/-- The entry of a name is marked in its place. -/
theorem use {x : String} {e : Local} : ∀ {scope : Scope}, scope.get? x = some e → scope.Marked (scope.insert x { e with isUsed := true })
  | (n, a) :: scope, h => by
    by_cases hx : n = x
    · simp only [Dict.get?, Dict.insert, hx, ↓reduceIte, Option.some.injEq] at h ⊢
      exact h ▸ .cons ⟨rfl, .use a⟩ (refl scope)
    · simp only [Dict.get?, Dict.insert, hx, ↓reduceIte] at h ⊢
      exact .cons ⟨rfl, .refl a⟩ (use h)

theorem mem : ∀ {scope scope' : Scope}, scope.Marked scope' → ∀ e' ∈ scope'.entries, ∃ e ∈ scope.entries, e'.1 = e.1 ∧ e.2.Marked e'.2
  | [], [], .nil, _, he' => nomatch he'
  | e :: _, _ :: _, .cons he _, _, .head _ => ⟨e, .head _, he⟩
  | _ :: _, _ :: _, .cons _ h, e', .tail _ he' =>
    have ⟨e, hm, he⟩ := mem h e' he'
    ⟨e, .tail _ hm, he⟩

/-- What is unused in the end was unused before. -/
theorem unused (h : scope.Marked scope') {w : Warning} (hw : w ∈ scope'.unused) : w ∈ scope.unused := by
  rw [Scope.mem_unused] at hw ⊢
  obtain ⟨e', he', hu', rfl⟩ := hw
  obtain ⟨e, he, hname, hm⟩ := h.mem e' he'
  have hu : e.2.isUsed = false := by
    by_contra hu
    exact Bool.false_ne_true (hu'.symm.trans (hm.isUsed (Bool.not_eq_false _ ▸ hu)))
  exact ⟨e, he, hu, by rw [hm.line, hname]⟩

end Scope.Marked

namespace Marked

variable {scopes scopes' scopes'' : List Scope}

theorem refl (scopes : List Scope) : Marked scopes scopes := List.forall₂_same.mpr fun scope _ => .refl scope

theorem trans (h : Marked scopes scopes') (h' : Marked scopes' scopes'') : Marked scopes scopes'' :=
  forall₂_trans (fun _ _ _ => .trans) h h'

theorem tail : ∀ {scopes scopes' : List Scope}, Marked scopes scopes' → Marked scopes.tail scopes'.tail
  | [], [], .nil => .nil
  | _ :: _, _ :: _, .cons _ h => h

/-- The variable that a name means stands in the same scope, whatever has been used. -/
theorem useIn (x : String) {scopes scopes' : List Scope} (h : Marked scopes scopes') :
    Option.Rel (fun p p' => p'.1 = p.1 ∧ Marked p.2 p'.2) (Resolution.useIn x scopes) (Resolution.useIn x scopes') := by
  induction h with
  | nil => exact .none
  | @cons scope scope' outer outer' hs h ih =>
    have hg := hs.get? x
    simp only [Resolution.useIn]
    cases hx : scope.get? x with
    | none =>
      rw [hx] at hg
      cases hg' : scope'.get? x with
      | none =>
        cases hu : Resolution.useIn x outer <;> cases hu' : Resolution.useIn x outer' <;> rw [hu, hu'] at ih <;> cases ih
        · exact .none
        · rename_i hp
          exact .some ⟨congrArg (· + 1) hp.1, .cons hs hp.2⟩
      | some e' => rw [hg'] at hg; cases hg
    | some e =>
      rw [hx] at hg
      cases hg' : scope'.get? x with
      | none => rw [hg'] at hg; cases hg
      | some e' =>
        rw [hg'] at hg
        cases hg with
        | some he =>
          have hused : Local.Marked { e with isUsed := true } { e' with isUsed := true } := ⟨he.isDefined, he.line, fun _ => rfl⟩
          exact .some ⟨rfl, .cons (.insert x hused hs) h⟩

end Marked

namespace Resolution

theorem marked_useIn (x : String) : ∀ {scopes : List Scope}, ∀ p ∈ useIn x scopes, Marked scopes p.2
  | scope :: outer, p, hp => by
    unfold useIn at hp
    cases hg : scope.get? x with
    | none =>
      rw [hg] at hp
      obtain ⟨q, hq, rfl⟩ := Option.map_eq_some_iff.mp hp
      exact .cons (.refl scope) (marked_useIn x q hq)
    | some e =>
      rw [hg] at hp
      cases hp
      exact .cons (.use hg) (Marked.refl outer)

variable (r : Resolution)

theorem use_marks (id : NodeId) (x : String) : Marked r.scopes (r.use id x).scopes := by
  unfold use
  split
  · exact .refl _
  · rename_i hu
    exact marked_useIn x _ hu

theorem readVariable_marks (id : NodeId) (name : Name) : Marked r.scopes (r.readVariable id name).scopes := by
  simpa [readVariable] using use_marks (r.reportIf (r.inOwnInitializer name.text) name.site .readInOwnInitializer) id name.text

theorem readThis_marks (ctx : Context) (id : NodeId) (line : Nat) : Marked r.scopes (r.readThis ctx id line).scopes := by
  unfold readThis
  split
  · simpa using .refl r.scopes
  · split
    · simpa using .refl r.scopes
    · exact use_marks r id "this"

theorem readSuper_marks (ctx : Context) (id : NodeId) (line : Nat) : Marked r.scopes (r.readSuper ctx id line).scopes := by
  unfold readSuper
  split
  · simpa using .refl r.scopes
  · simpa using .refl r.scopes
  · split
    · simpa using .refl r.scopes
    · exact use_marks r id "super"

/-! Declarations enter their names in the innermost scope only. -/

@[simp] theorem openScope_outer : r.openScope.scopes.tail = r.scopes := rfl

@[simp] theorem openImplicit_outer (name : String) : (r.openImplicit name).scopes.tail = r.scopes := rfl

@[simp] theorem declare_outer (name : Name) : (r.declare name).scopes.tail = r.scopes.tail := by
  unfold declare
  split <;> simp_all

@[simp] theorem define_outer (name : Name) : (r.define name).scopes.tail = r.scopes.tail := by
  unfold define
  split
  · rfl
  · split <;> simp_all

@[simp] theorem introduce_outer (name : Name) : (r.introduce name).scopes.tail = r.scopes.tail := by
  simp [introduce]

theorem introduceAll_outer (params : List Name) (r : Resolution) : (params.foldl introduce r).scopes.tail = r.scopes.tail := by
  induction params generalizing r with
  | nil => rfl
  | cons p ps ih => simpa using ih (r.introduce p)

end Resolution

open Resolution

/-! ## What a walk leaves -/

mutual

theorem Expr.resolve_marks : ∀ (e : Expr) (ctx : Context) (r : Resolution), Marked r.scopes (e.resolve ctx r).scopes
  | .literal _, _, r => .refl r.scopes
  | .unary _ _ operand, ctx, r => operand.resolve_marks ctx r
  | .binary _ _ left right, ctx, r => (left.resolve_marks ctx r).trans (right.resolve_marks ctx _)
  | .logical _ _ left right, ctx, r => (left.resolve_marks ctx r).trans (right.resolve_marks ctx _)
  | .group inner, ctx, r => inner.resolve_marks ctx r
  | .var id name, _, r => r.readVariable_marks id name
  | .assign id name value, ctx, r => (value.resolve_marks ctx r).trans (use_marks _ id name.text)
  | .call callee _ arguments, ctx, r => (callee.resolve_marks ctx r).trans (resolveExprs_marks arguments ctx _)
  | .lambda _ routine, ctx, r => routine.resolve_marks (ctx.enter .function) r
  | .get object _, ctx, r => object.resolve_marks ctx r
  | .set object _ value, ctx, r => (object.resolve_marks ctx r).trans (value.resolve_marks ctx _)
  | .this id line, ctx, r => r.readThis_marks ctx id line
  | .super id line _, ctx, r => r.readSuper_marks ctx id line

theorem resolveExprs_marks : ∀ (es : List Expr) (ctx : Context) (r : Resolution), Marked r.scopes (resolveExprs es ctx r).scopes
  | [], _, r => .refl r.scopes
  | e :: es, ctx, r => (e.resolve_marks ctx r).trans (resolveExprs_marks es ctx _)

/-- A statement may declare a variable in the innermost scope. -/
theorem Stmt.resolve_marks : ∀ (st : Stmt) (ctx : Context) (r : Resolution), Marked r.scopes.tail (st.resolve ctx r).scopes.tail
  | .expr e, ctx, r => (e.resolve_marks ctx r).tail
  | .print e, ctx, r => (e.resolve_marks ctx r).tail
  | .varDecl name none, _, r => by simpa [Stmt.resolve] using .refl r.scopes.tail
  | .varDecl name (some e), ctx, r => by simpa [Stmt.resolve] using (e.resolve_marks ctx (r.declare name)).tail
  | .block body, ctx, r => by
    simpa [Stmt.resolve] using (resolveStmts_marks body ctx r.openScope).tail
  | .branch condition thenBranch none, ctx, r => (condition.resolve_marks ctx r).tail.trans (thenBranch.resolve_marks ctx _)
  | .branch condition thenBranch (some elseBranch), ctx, r =>
    ((condition.resolve_marks ctx r).tail.trans (thenBranch.resolve_marks ctx _)).trans (elseBranch.resolve_marks ctx _)
  | .loop condition body, ctx, r => (condition.resolve_marks ctx r).tail.trans (body.resolve_marks _ _)
  | .funDecl name routine, ctx, r => by
    simpa [Stmt.resolve] using (routine.resolve_marks (ctx.enter .function) (r.introduce name)).tail
  | .returns form line none, ctx, r => by simpa [Stmt.resolve, checkReturn] using .refl r.scopes.tail
  | .returns form line (some e), ctx, r => by
    simpa [Stmt.resolve, checkReturn] using (e.resolve_marks ctx (r.checkReturn ctx form line true)).tail
  | .breaks line, ctx, r => by simpa [Stmt.resolve, checkBreak] using .refl r.scopes.tail
  | .classDecl name superclass methods statics, ctx, r => by
    have hmembers : ∀ (ctx ctx' : Context) (q : Resolution),
        Marked q.scopes (resolveMethods methods ctx' ((resolveStatics statics ctx q).openImplicit "this")).scopes.tail :=
      fun ctx ctx' q => (resolveStatics_marks statics ctx q).trans
        (resolveMethods_marks methods ctx' ((resolveStatics statics ctx q).openImplicit "this")).tail
    cases superclass with
    | none => simpa [Stmt.resolve, closeSuperclass, readSuperclass] using (hmembers _ _ (r.introduce name)).tail
    | some ref =>
      let q := (r.introduce name).reportIf (ref.name.text = name.text) ref.name.site .inheritsFromItself
      have hread : Marked q.scopes (q.readVariable ref.id ref.name).scopes := q.readVariable_marks ref.id ref.name
      have h := (hmembers { ctx with classKind := .derived, inStatic := true } { ctx with classKind := .derived, inStatic := false }
        ((q.readVariable ref.id ref.name).openImplicit "super")).tail
      simpa [Stmt.resolve, closeSuperclass, readSuperclass, ClassKind.ofSuperclass, q] using (hread.trans h).tail

theorem resolveStmts_marks : ∀ (sts : List Stmt) (ctx : Context) (r : Resolution),
    Marked r.scopes.tail (resolveStmts sts ctx r).scopes.tail
  | [], _, r => .refl r.scopes.tail
  | st :: sts, ctx, r => (st.resolve_marks ctx r).trans (resolveStmts_marks sts ctx _)

theorem Routine.resolve_marks : ∀ (routine : Routine) (ctx : Context) (r : Resolution), Marked r.scopes (routine.resolve ctx r).scopes
  | ⟨params, body⟩, ctx, r => by
    have h := resolveStmts_marks body ctx (params.foldl introduce r.openScope)
    rw [introduceAll_outer, openScope_outer] at h
    simpa [Routine.resolve] using h

theorem Method.resolve_marks : ∀ (m : Method) (body : BodyKind) (ctx : Context) (r : Resolution),
    Marked r.scopes (m.resolve body ctx r).scopes
  | ⟨_, _, routine⟩, body, ctx, r => routine.resolve_marks (ctx.enter body) r

theorem resolveMethods_marks : ∀ (ms : List Method) (ctx : Context) (r : Resolution), Marked r.scopes (resolveMethods ms ctx r).scopes
  | [], _, r => .refl r.scopes
  | m :: ms, ctx, r => (m.resolve_marks m.bodyKind ctx r).trans (resolveMethods_marks ms ctx _)

theorem resolveStatics_marks : ∀ (ms : List Method) (ctx : Context) (r : Resolution), Marked r.scopes (resolveStatics ms ctx r).scopes
  | [], _, r => .refl r.scopes
  | m :: ms, ctx, r => (m.resolve_marks .function ctx r).trans (resolveStatics_marks ms ctx _)

end

end Lox
