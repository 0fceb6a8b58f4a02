import Mathlib.Data.List.Forall2
import Lox.Scope.Resolve
import Lox.Proofs.Scope.Lexical

/-!
# The binding table is lexical scoping

The walk of the resolution keeps its open scopes in step with the scopes that the tree shows, and
enters each occurrence with the depth of the innermost scope that declares its name.
-/

namespace Lox

/-- The open scope holds the names that the tree shows. -/
def Scope.Mirrors (scope : Scope) (s : LocalScope) : Prop := ∀ x, scope.contains x = true ↔ x ∈ s.names

def Mirrors (open_ : List Scope) (scopes : Scopes) : Prop := List.Forall₂ Scope.Mirrors open_ scopes

theorem Dict.contains_insert {α : Type} (d : Dict α) (m name : String) (a : α) :
    (d.insert name a).contains m = true ↔ m = name ∨ d.contains m = true := by
  unfold Dict.contains
  rw [Dict.get?_insert]
  by_cases h : m = name <;> simp [h]

namespace Resolution

/-! ## Findings -/

@[simp] theorem report_scopes (r : Resolution) (site : Site) (fault : ScopeFault) :
    (r.report site fault).scopes = r.scopes := by
  unfold report; split <;> rfl

@[simp] theorem report_table (r : Resolution) (site : Site) (fault : ScopeFault) :
    (r.report site fault).table = r.table := by
  unfold report; split <;> rfl

theorem report_errors_ne (r : Resolution) (site : Site) (fault : ScopeFault) :
    (r.report site fault).errors ≠ [] := by
  unfold report
  split
  · rename_i h; exact List.ne_nil_of_mem h
  · simp

@[simp] theorem reportIf_scopes (r : Resolution) (found : Bool) (site : Site) (fault : ScopeFault) :
    (r.reportIf found site fault).scopes = r.scopes := by
  cases found <;> simp [reportIf]

@[simp] theorem reportIf_table (r : Resolution) (found : Bool) (site : Site) (fault : ScopeFault) :
    (r.reportIf found site fault).table = r.table := by
  cases found <;> simp [reportIf]

/-- Where nothing is found there was nothing to find. -/
theorem of_reportIf {r : Resolution} {found : Bool} {site : Site} {fault : ScopeFault}
    (h : (r.reportIf found site fault).errors = []) : found = false ∧ r.errors = [] := by
  cases found with
  | false => exact ⟨rfl, h⟩
  | true => exact absurd h (report_errors_ne r site fault)

@[simp] theorem warn_scopes (r : Resolution) (w : Warning) : (r.warn w).scopes = r.scopes := by
  unfold warn; split <;> rfl

@[simp] theorem warn_table (r : Resolution) (w : Warning) : (r.warn w).table = r.table := by
  unfold warn; split <;> rfl

@[simp] theorem warn_errors (r : Resolution) (w : Warning) : (r.warn w).errors = r.errors := by
  unfold warn; split <;> rfl

theorem foldl_warn (ws : List Warning) (r : Resolution) :
    (ws.foldl warn r).scopes = r.scopes ∧ (ws.foldl warn r).table = r.table ∧
      (ws.foldl warn r).errors = r.errors := by
  induction ws generalizing r with
  | nil => exact ⟨rfl, rfl, rfl⟩
  | cons w ws ih => simpa using ih (r.warn w)

/-! ## Scopes -/

@[simp] theorem closeScope_scopes (r : Resolution) : r.closeScope.scopes = r.scopes.tail := by
  unfold closeScope
  cases h : r.scopes with
  | nil => simpa using h
  | cons scope outer => exact (foldl_warn ..).1

@[simp] theorem closeScope_table (r : Resolution) : r.closeScope.table = r.table := by
  unfold closeScope
  cases r.scopes with
  | nil => rfl
  | cons scope outer => exact (foldl_warn ..).2.1

@[simp] theorem closeScope_errors (r : Resolution) : r.closeScope.errors = r.errors := by
  unfold closeScope
  cases r.scopes with
  | nil => rfl
  | cons scope outer => exact (foldl_warn ..).2.2

@[simp] theorem declare_table (r : Resolution) (name : Name) : (r.declare name).table = r.table := by
  unfold declare; cases r.scopes <;> simp

theorem of_declare {r : Resolution} {name : Name} (h : (r.declare name).errors = []) : r.errors = [] := by
  unfold declare at h
  split at h
  · exact h
  · exact (of_reportIf h).2

@[simp] theorem define_table (r : Resolution) (name : Name) : (r.define name).table = r.table := by
  unfold define; split
  · rfl
  · split <;> rfl

@[simp] theorem define_errors (r : Resolution) (name : Name) : (r.define name).errors = r.errors := by
  unfold define; split
  · rfl
  · split <;> rfl

@[simp] theorem introduce_table (r : Resolution) (name : Name) : (r.introduce name).table = r.table := by
  simp [introduce]

theorem of_introduce {r : Resolution} {name : Name} (h : (r.introduce name).errors = []) : r.errors = [] :=
  of_declare (by simpa [introduce] using h)

theorem openScope_mirrors {r : Resolution} {scopes : Scopes} (h : Mirrors r.scopes scopes) {s : LocalScope}
    (hs : s.names = []) : Mirrors r.openScope.scopes (s :: scopes) :=
  .cons (by simp [Scope.Mirrors, Dict.contains, hs]) h

theorem openImplicit_mirrors {r : Resolution} {scopes : Scopes} (h : Mirrors r.scopes scopes) {name : String}
    {s : LocalScope} (hs : s.names = [name]) : Mirrors (r.openImplicit name).scopes (s :: scopes) :=
  .cons (fun x => by rw [Dict.contains_insert, hs]; simp [Dict.contains]) h

theorem closeScope_mirrors {r : Resolution} {s : LocalScope} {scopes : Scopes}
    (h : Mirrors r.scopes (s :: scopes)) : Mirrors r.closeScope.scopes scopes := by
  rw [closeScope_scopes]
  cases hs : r.scopes with
  | nil => rw [hs] at h; cases h
  | cons scope outer => rw [hs] at h; exact (List.forall₂_cons.mp h).2

theorem declare_mirrors {r : Resolution} {scopes : Scopes} (h : Mirrors r.scopes scopes) (name : Name) :
    Mirrors (r.declare name).scopes (scopes.declare [name.text]) := by
  unfold declare
  cases hs : r.scopes with
  | nil => rw [hs] at h; cases h; simp only [hs]; exact .nil
  | cons scope outer =>
    rw [hs] at h
    cases h with
    | cons hh ht =>
      simp only [reportIf_scopes]
      refine .cons (fun x => ?_) ht
      rw [Dict.contains_insert, hh x]
      simp

theorem define_mirrors {r : Resolution} {scopes : Scopes} (h : Mirrors r.scopes scopes) (name : Name) :
    Mirrors (r.define name).scopes scopes := by
  unfold define
  cases hs : r.scopes with
  | nil => simpa [hs] using h
  | cons scope outer =>
    rw [hs] at h
    cases hg : scope.get? name.text with
    | none => simpa [hg, hs] using h
    | some entry =>
      cases h with
      | cons hh ht =>
        simp only [hg]
        refine .cons (fun x => ?_) ht
        rw [Dict.contains_insert, ← hh x]
        constructor
        · rintro (rfl | hx)
          · simp [Dict.contains, hg]
          · exact hx
        · exact Or.inr

theorem declare_pending {r : Resolution} {scopes : Scopes} (h : Mirrors r.scopes scopes) (name : Name) :
    Mirrors (r.declare name).scopes (scopes.enterInitializer name.text) := by
  have hd := declare_mirrors h name
  generalize (r.declare name).scopes = inner at hd ⊢
  cases scopes with
  | nil => exact hd
  | cons s outer =>
    cases hd with
    | cons hh ht => exact .cons hh ht

theorem of_checkReturn {r : Resolution} {ctx : Context} {form : ReturnForm} {line : Nat} {hasValue : Bool}
    (h : (r.checkReturn ctx form line hasValue).errors = []) : r.errors = [] :=
  (of_reportIf (of_reportIf h).2).2

@[simp] theorem checkReturn_table (r : Resolution) (ctx : Context) (form : ReturnForm) (line : Nat) (hasValue : Bool) :
    (r.checkReturn ctx form line hasValue).table = r.table := by
  simp [checkReturn]

@[simp] theorem closeSuperclass_table (r : Resolution) (superclass : Option Reference) :
    (r.closeSuperclass superclass).table = r.table := by
  unfold closeSuperclass; split <;> simp

@[simp] theorem closeSuperclass_errors (r : Resolution) (superclass : Option Reference) :
    (r.closeSuperclass superclass).errors = r.errors := by
  unfold closeSuperclass; split <;> simp

theorem introduce_mirrors {r : Resolution} {scopes : Scopes} (h : Mirrors r.scopes scopes) (name : Name) :
    Mirrors (r.introduce name).scopes (scopes.declare [name.text]) :=
  define_mirrors (declare_mirrors h name) name

theorem introduceAll_table (params : List Name) (r : Resolution) :
    (params.foldl introduce r).table = r.table := by
  induction params generalizing r with
  | nil => rfl
  | cons p ps ih => simpa using ih (r.introduce p)

theorem of_introduceAll {params : List Name} {r : Resolution} (h : (params.foldl introduce r).errors = []) :
    r.errors = [] := by
  induction params generalizing r with
  | nil => exact h
  | cons p ps ih => exact of_introduce (ih h)

theorem introduceAll_mirrors (params : List Name) {r : Resolution} {scopes : Scopes}
    (h : Mirrors r.scopes scopes) :
    Mirrors (params.foldl introduce r).scopes (scopes.declare (params.map Name.text).reverse) := by
  induction params generalizing r scopes with
  | nil => simpa using h
  | cons p ps ih =>
    have := ih (introduce_mirrors h p)
    rw [Scopes.declare_append] at this
    simpa using this

theorem parameters_mirrors {r : Resolution} {scopes : Scopes} (h : Mirrors r.scopes scopes) (routine : Routine) :
    Mirrors (routine.params.foldl introduce r.openScope).scopes (.ofRoutine routine :: scopes) := by
  let empty : LocalScope := { opener := .routine routine, names := [], pending := none }
  have hp := introduceAll_mirrors routine.params (openScope_mirrors (s := empty) h rfl)
  rwa [Scopes.declare, List.append_nil] at hp

/-! ## Occurrences -/

theorem useIn_mirrors (name : String) {scopes : List Scope} {Γ : Scopes} (h : Mirrors scopes Γ) :
    match useIn name scopes with
    | none => Γ.depth? name = none
    | some (d, scopes') => Γ.depth? name = some d ∧ Mirrors scopes' Γ := by
  induction h with
  | nil => rfl
  | @cons scope s outer Γ hh ht ih =>
    unfold useIn
    cases hg : scope.get? name with
    | some entry =>
      have hn : name ∈ s.names := (hh name).mp (by simp [Dict.contains, hg])
      refine ⟨Scopes.depth?_cons_of_mem hn _, .cons (fun x => ?_) ht⟩
      rw [Dict.contains_insert, ← hh x]
      constructor
      · rintro (rfl | hx)
        · simp [Dict.contains, hg]
        · exact hx
      · exact Or.inr
    | none =>
      have hn : name ∉ s.names := fun hn => by simpa [Dict.contains, hg] using (hh name).mpr hn
      rw [Scopes.depth?_cons_of_not_mem hn]
      cases hu : useIn name outer with
      | none => rw [hu] at ih; simp [ih]
      | some p => rw [hu] at ih; exact ⟨by simp [ih.1], .cons hh ih.2⟩

theorem use_mirrors {r : Resolution} {scopes : Scopes} (h : Mirrors r.scopes scopes) (id : NodeId)
    (name : String) : Mirrors (r.use id name).scopes scopes := by
  have hu := useIn_mirrors name h
  unfold use
  cases hq : useIn name r.scopes with
  | none => exact h
  | some p => rw [hq] at hu; exact hu.2

@[simp] theorem use_errors (r : Resolution) (id : NodeId) (name : String) : (r.use id name).errors = r.errors := by
  unfold use; split <;> rfl

end Resolution

/-- The table after an occurrence that no local scope declares is the table before. -/
def BindingTable.enter (t : BindingTable) (o : Occurrence) : BindingTable :=
  match o.depth? with
  | some d => t.insert o.id d
  | none => t

/-- The table after some more occurrences. -/
def BindingTable.enterAll (t : BindingTable) (os : List Occurrence) : BindingTable := os.foldl enter t

@[simp] theorem BindingTable.enterAll_append (t : BindingTable) (os ps : List Occurrence) :
    t.enterAll (os ++ ps) = (t.enterAll os).enterAll ps := by
  simp [enterAll]

theorem Resolution.use_table {r : Resolution} {scopes : Scopes} (h : Mirrors r.scopes scopes) (id : NodeId)
    (name : String) : (r.use id name).table = r.table.enterAll [⟨id, name, scopes⟩] := by
  have hu := useIn_mirrors name h
  unfold use
  simp only [BindingTable.enterAll, List.foldl, BindingTable.enter, Occurrence.depth?]
  cases hq : useIn name r.scopes with
  | none => rw [hq] at hu; simp only at hu; simp [hu]
  | some p => rw [hq] at hu; simp [hu.1]

/-! ## The walk keeps in step with the tree -/

namespace Resolution

theorem readVariable_mirrors {r : Resolution} {scopes : Scopes} (h : Mirrors r.scopes scopes) (id : NodeId)
    (name : Name) : Mirrors (r.readVariable id name).scopes scopes :=
  use_mirrors (by simpa using h) id name.text

theorem readThis_mirrors {r : Resolution} {scopes : Scopes} (h : Mirrors r.scopes scopes) (ctx : Context)
    (id : NodeId) (line : Nat) : Mirrors (r.readThis ctx id line).scopes scopes := by
  unfold readThis
  split
  · simpa using h
  · split
    · simpa using h
    · exact use_mirrors h id "this"

theorem readSuper_mirrors {r : Resolution} {scopes : Scopes} (h : Mirrors r.scopes scopes) (ctx : Context)
    (id : NodeId) (line : Nat) : Mirrors (r.readSuper ctx id line).scopes scopes := by
  unfold readSuper
  split
  · simpa using h
  · simpa using h
  · split
    · simpa using h
    · exact use_mirrors h id "super"

theorem readSuperclass_mirrors {r : Resolution} {scopes : Scopes} (h : Mirrors r.scopes scopes) (className : Name)
    (superclass : Option Reference) (decl : Stmt) :
    Mirrors (r.readSuperclass className superclass).scopes (scopes.derive decl superclass) := by
  cases superclass with
  | none => exact h
  | some ref => exact openImplicit_mirrors (readVariable_mirrors (by simpa using h) _ _) rfl

theorem closeSuperclass_mirrors (decl : Stmt) {superclass : Option Reference} {r : Resolution} {scopes : Scopes}
    (h : Mirrors r.scopes (scopes.derive decl superclass)) : Mirrors (r.closeSuperclass superclass).scopes scopes := by
  cases superclass with
  | none => exact h
  | some ref => exact closeScope_mirrors h

end Resolution

open Resolution

mutual

theorem Expr.resolve_mirrors : ∀ (e : Expr) (ctx : Context) {r : Resolution} {scopes : Scopes},
    Mirrors r.scopes scopes → Mirrors (e.resolve ctx r).scopes scopes
  | .literal _, _, _, _, h => h
  | .unary _ _ operand, ctx, _, _, h => operand.resolve_mirrors ctx h
  | .binary _ _ left right, ctx, _, _, h => right.resolve_mirrors ctx (left.resolve_mirrors ctx h)
  | .logical _ _ left right, ctx, _, _, h => right.resolve_mirrors ctx (left.resolve_mirrors ctx h)
  | .group inner, ctx, _, _, h => inner.resolve_mirrors ctx h
  | .var id name, _, _, _, h => readVariable_mirrors h id name
  | .assign id name value, ctx, _, _, h => use_mirrors (value.resolve_mirrors ctx h) id name.text
  | .call callee _ arguments, ctx, _, _, h => resolveExprs_mirrors arguments ctx (callee.resolve_mirrors ctx h)
  | .lambda _ routine, ctx, _, _, h => routine.resolve_mirrors (ctx.enter .function) h
  | .get object _, ctx, _, _, h => object.resolve_mirrors ctx h
  | .set object _ value, ctx, _, _, h => value.resolve_mirrors ctx (object.resolve_mirrors ctx h)
  | .this id line, ctx, _, _, h => readThis_mirrors h ctx id line
  | .super id line _, ctx, _, _, h => readSuper_mirrors h ctx id line

theorem resolveExprs_mirrors : ∀ (es : List Expr) (ctx : Context) {r : Resolution} {scopes : Scopes},
    Mirrors r.scopes scopes → Mirrors (resolveExprs es ctx r).scopes scopes
  | [], _, _, _, h => h
  | e :: es, ctx, _, _, h => resolveExprs_mirrors es ctx (e.resolve_mirrors ctx h)

theorem Stmt.resolve_mirrors : ∀ (st : Stmt) (ctx : Context) {r : Resolution} {scopes : Scopes},
    Mirrors r.scopes scopes → Mirrors (st.resolve ctx r).scopes (scopes.declare st.declares)
  | .expr e, ctx, _, _, h => by rw [Stmt.declares, Scopes.declare_nil]; exact e.resolve_mirrors ctx h
  | .print e, ctx, _, _, h => by rw [Stmt.declares, Scopes.declare_nil]; exact e.resolve_mirrors ctx h
  | .varDecl name none, _, _, _, h => introduce_mirrors h name
  | .varDecl name (some e), ctx, _, _, h => define_mirrors (e.resolve_mirrors ctx (declare_mirrors h name)) name
  | .block body, ctx, _, _, h => by
    rw [Stmt.declares, Scopes.declare_nil]
    exact closeScope_mirrors (resolveStmts_mirrors body ctx (openScope_mirrors (s := .ofBlock body) h rfl))
  | .branch condition thenBranch none, ctx, _, _, h =>
    thenBranch.resolve_mirrors ctx (condition.resolve_mirrors ctx h)
  | .branch condition thenBranch (some elseBranch), ctx, _, _, h => by
    rw [Stmt.declares, ← Scopes.declare_append]
    exact elseBranch.resolve_mirrors ctx (thenBranch.resolve_mirrors ctx (condition.resolve_mirrors ctx h))
  | .loop condition body, ctx, _, _, h => body.resolve_mirrors _ (condition.resolve_mirrors ctx h)
  | .funDecl name routine, ctx, _, _, h => routine.resolve_mirrors (ctx.enter .function) (introduce_mirrors h name)
  | .returns _ _ none, _, _, _, h => by
    rw [Stmt.declares, Scopes.declare_nil]; simpa [Stmt.resolve, checkReturn] using h
  | .returns _ _ (some e), ctx, _, _, h => by
    rw [Stmt.declares, Scopes.declare_nil]
    exact e.resolve_mirrors ctx (by simpa [checkReturn] using h)
  | .breaks _, _, _, _, h => by
    rw [Stmt.declares, Scopes.declare_nil]; simpa [Stmt.resolve, checkBreak] using h
  | .classDecl name superclass methods statics, _, _, _, h => by
    let decl : Stmt := .classDecl name superclass methods statics
    have hs := readSuperclass_mirrors (introduce_mirrors h name) name superclass decl
    refine closeSuperclass_mirrors decl (closeScope_mirrors (s := .ofReceiver decl) ?_)
    exact resolveMethods_mirrors methods _ (openImplicit_mirrors (resolveStatics_mirrors statics _ hs) rfl)

theorem resolveStmts_mirrors : ∀ (sts : List Stmt) (ctx : Context) {r : Resolution} {scopes : Scopes},
    Mirrors r.scopes scopes → Mirrors (resolveStmts sts ctx r).scopes (scopes.declare (declaredBy sts))
  | [], _, _, _, h => by rw [declaredBy, Scopes.declare_nil]; exact h
  | st :: sts, ctx, _, _, h => by
    rw [declaredBy, ← Scopes.declare_append]
    exact resolveStmts_mirrors sts ctx (st.resolve_mirrors ctx h)

theorem Routine.resolve_mirrors : ∀ (routine : Routine) (ctx : Context) {r : Resolution} {scopes : Scopes},
    Mirrors r.scopes scopes → Mirrors (routine.resolve ctx r).scopes scopes
  | ⟨params, body⟩, ctx, _, _, h => by
    exact closeScope_mirrors (resolveStmts_mirrors body ctx (parameters_mirrors h ⟨params, body⟩))

theorem Method.resolve_mirrors : ∀ (m : Method) (body : BodyKind) (ctx : Context) {r : Resolution} {scopes : Scopes},
    Mirrors r.scopes scopes → Mirrors (m.resolve body ctx r).scopes scopes
  | ⟨_, _, routine⟩, body, ctx, _, _, h => routine.resolve_mirrors (ctx.enter body) h

theorem resolveMethods_mirrors : ∀ (ms : List Method) (ctx : Context) {r : Resolution} {scopes : Scopes},
    Mirrors r.scopes scopes → Mirrors (resolveMethods ms ctx r).scopes scopes
  | [], _, _, _, h => h
  | m :: ms, ctx, _, _, h => resolveMethods_mirrors ms ctx (m.resolve_mirrors m.bodyKind ctx h)

theorem resolveStatics_mirrors : ∀ (ms : List Method) (ctx : Context) {r : Resolution} {scopes : Scopes},
    Mirrors r.scopes scopes → Mirrors (resolveStatics ms ctx r).scopes scopes
  | [], _, _, _, h => h
  | m :: ms, ctx, _, _, h => resolveStatics_mirrors ms ctx (m.resolve_mirrors .function ctx h)

end

/-! ## The walk enters the occurrences in their order -/

/-- From the first resolution on, what is found without an error is these occurrences. -/
structure Enters (r r' : Resolution) (os : List Occurrence) : Prop where
  errors : r.errors = []
  table : r'.table = r.table.enterAll os

namespace Enters

variable {r r₁ r₂ : Resolution} {os ps : List Occurrence}

theorem refl (h : r.errors = []) : Enters r r [] := ⟨h, rfl⟩

theorem trans (h : Enters r r₁ os) (h' : Enters r₁ r₂ ps) : Enters r r₂ (os ++ ps) :=
  ⟨h.errors, by rw [BindingTable.enterAll_append, ← h.table]; exact h'.table⟩

/-- Steps that enter nothing can come before. -/
theorem after {r₀ : Resolution} (h : Enters r r₁ os) (he : r.errors = [] → r₀.errors = [])
    (ht : r.table = r₀.table) : Enters r₀ r₁ os :=
  ⟨he h.errors, by rw [← ht]; exact h.table⟩

theorem opened (h : Enters r.openScope r₁ os) : Enters r r₁ os := ⟨h.errors, h.table⟩

theorem thenTable (h : Enters r r₁ os) (ht : r₂.table = r₁.table) : Enters r r₂ os :=
  ⟨h.errors, ht.trans h.table⟩

end Enters

namespace Resolution

variable {r : Resolution} {scopes : Scopes}

theorem use_enters (h : Mirrors r.scopes scopes) {id : NodeId} {name : String}
    (he : (r.use id name).errors = []) : Enters r (r.use id name) [⟨id, name, scopes⟩] :=
  ⟨by simpa using he, use_table h id name⟩

theorem readVariable_enters (h : Mirrors r.scopes scopes) {id : NodeId} {name : Name}
    (he : (r.readVariable id name).errors = []) : Enters r (r.readVariable id name) [⟨id, name.text, scopes⟩] :=
  (use_enters (by simpa using h) he).after (fun h => (of_reportIf h).2) (by simp)

theorem of_readThis {ctx : Context} {id : NodeId} {line : Nat} (he : (r.readThis ctx id line).errors = []) :
    ctx.classKind ≠ .none ∧ ctx.inStatic = false ∧ r.readThis ctx id line = r.use id "this" := by
  unfold readThis at he ⊢
  cases hk : ctx.classKind with
  | none => rw [hk] at he; exact (report_errors_ne _ _ _ he).elim
  | _ =>
    cases hs : ctx.inStatic with
    | true => simp only [hk, hs] at he; exact (report_errors_ne _ _ _ he).elim
    | false => simp

theorem of_readSuper {ctx : Context} {id : NodeId} {line : Nat} (he : (r.readSuper ctx id line).errors = []) :
    ctx.classKind = .derived ∧ ctx.inStatic = false ∧ r.readSuper ctx id line = r.use id "super" := by
  unfold readSuper at he ⊢
  cases hk : ctx.classKind with
  | none => rw [hk] at he; exact (report_errors_ne _ _ _ he).elim
  | root => rw [hk] at he; exact (report_errors_ne _ _ _ he).elim
  | derived =>
    cases hs : ctx.inStatic with
    | true => simp only [hk, hs] at he; exact (report_errors_ne _ _ _ he).elim
    | false => simp

theorem readThis_enters (h : Mirrors r.scopes scopes) {ctx : Context} {id : NodeId} {line : Nat}
    (he : (r.readThis ctx id line).errors = []) : Enters r (r.readThis ctx id line) [⟨id, "this", scopes⟩] := by
  have hu := (of_readThis he).2.2
  rw [hu] at he ⊢
  exact use_enters h he

theorem readSuper_enters (h : Mirrors r.scopes scopes) {ctx : Context} {id : NodeId} {line : Nat}
    (he : (r.readSuper ctx id line).errors = []) : Enters r (r.readSuper ctx id line) [⟨id, "super", scopes⟩] := by
  have hu := (of_readSuper he).2.2
  rw [hu] at he ⊢
  exact use_enters h he

theorem readSuperclass_enters (h : Mirrors r.scopes scopes) {className : Name} {superclass : Option Reference}
    (he : (r.readSuperclass className superclass).errors = []) :
    Enters r (r.readSuperclass className superclass)
      (superclass.map fun ref => (⟨ref.id, ref.name.text, scopes⟩ : Occurrence)).toList := by
  cases superclass with
  | none => exact .refl he
  | some ref =>
    have hc : Mirrors (r.reportIf (ref.name.text = className.text) ref.name.site .inheritsFromItself).scopes scopes := by
      simpa using h
    have hv := readVariable_enters hc he
    exact (hv.after (fun h => (of_reportIf h).2) (by simp)).thenTable rfl

end Resolution

mutual

theorem Expr.resolve_enters : ∀ (e : Expr) (ctx : Context) {r : Resolution} {scopes : Scopes},
    Mirrors r.scopes scopes → (e.resolve ctx r).errors = [] → Enters r (e.resolve ctx r) (e.occurrences scopes)
  | .literal _, _, _, _, _, he => .refl he
  | .unary _ _ operand, ctx, _, _, h, he => operand.resolve_enters ctx h he
  | .binary _ _ left right, ctx, _, _, h, he => by
    have hr := right.resolve_enters ctx (left.resolve_mirrors ctx h) he
    exact (left.resolve_enters ctx h hr.errors).trans hr
  | .logical _ _ left right, ctx, _, _, h, he => by
    have hr := right.resolve_enters ctx (left.resolve_mirrors ctx h) he
    exact (left.resolve_enters ctx h hr.errors).trans hr
  | .group inner, ctx, _, _, h, he => inner.resolve_enters ctx h he
  | .var _ _, _, _, _, h, he => readVariable_enters h he
  | .assign _ _ value, ctx, _, _, h, he => by
    have hu := use_enters (value.resolve_mirrors ctx h) he
    exact (value.resolve_enters ctx h hu.errors).trans hu
  | .call callee _ arguments, ctx, _, _, h, he => by
    have ha := resolveExprs_enters arguments ctx (callee.resolve_mirrors ctx h) he
    exact (callee.resolve_enters ctx h ha.errors).trans ha
  | .lambda _ routine, ctx, _, _, h, he => routine.resolve_enters (ctx.enter .function) h he
  | .get object _, ctx, _, _, h, he => object.resolve_enters ctx h he
  | .set object _ value, ctx, _, _, h, he => by
    have hv := value.resolve_enters ctx (object.resolve_mirrors ctx h) he
    exact (object.resolve_enters ctx h hv.errors).trans hv
  | .this _ _, _, _, _, h, he => readThis_enters h he
  | .super _ _ _, _, _, _, h, he => readSuper_enters h he

theorem resolveExprs_enters : ∀ (es : List Expr) (ctx : Context) {r : Resolution} {scopes : Scopes},
    Mirrors r.scopes scopes → (resolveExprs es ctx r).errors = [] →
    Enters r (resolveExprs es ctx r) (occurrencesExprs es scopes)
  | [], _, _, _, _, he => .refl he
  | e :: es, ctx, _, _, h, he => by
    have hr := resolveExprs_enters es ctx (e.resolve_mirrors ctx h) he
    exact (e.resolve_enters ctx h hr.errors).trans hr

theorem Stmt.resolve_enters : ∀ (st : Stmt) (ctx : Context) {r : Resolution} {scopes : Scopes},
    Mirrors r.scopes scopes → (st.resolve ctx r).errors = [] → Enters r (st.resolve ctx r) (st.occurrences scopes)
  | .expr e, ctx, _, _, h, he => e.resolve_enters ctx h he
  | .print e, ctx, _, _, h, he => e.resolve_enters ctx h he
  | .varDecl name none, _, _, _, _, he => ⟨of_introduce he, introduce_table ..⟩
  | .varDecl name (some e), ctx, r, scopes, h, he => by
    have hd : Mirrors (r.declare name).scopes (scopes.enterInitializer name.text) := declare_pending h name
    have hv := e.resolve_enters ctx hd (by simpa [Stmt.resolve] using he)
    exact (hv.after of_declare (declare_table ..)).thenTable (define_table ..)
  | .block body, ctx, _, _, h, he => by
    have hb := resolveStmts_enters body ctx (openScope_mirrors (s := .ofBlock body) h rfl) (by simpa [Stmt.resolve] using he)
    exact hb.opened.thenTable (closeScope_table _)
  | .branch condition thenBranch none, ctx, _, _, h, he => by
    have ht := thenBranch.resolve_enters ctx (condition.resolve_mirrors ctx h) he
    exact (condition.resolve_enters ctx h ht.errors).trans ht
  | .branch condition thenBranch (some elseBranch), ctx, _, _, h, he => by
    have hc := condition.resolve_mirrors ctx h
    have hf := elseBranch.resolve_enters ctx (thenBranch.resolve_mirrors ctx hc) he
    have ht := thenBranch.resolve_enters ctx hc hf.errors
    exact ((condition.resolve_enters ctx h ht.errors).trans ht).trans hf
  | .loop condition body, ctx, _, _, h, he => by
    have hb := body.resolve_enters _ (condition.resolve_mirrors ctx h) he
    exact (condition.resolve_enters ctx h hb.errors).trans hb
  | .funDecl name routine, ctx, _, _, h, he =>
    (routine.resolve_enters (ctx.enter .function) (introduce_mirrors h name) he).after of_introduce (introduce_table ..)
  | .returns _ _ none, _, _, _, _, he => ⟨of_checkReturn he, checkReturn_table ..⟩
  | .returns _ _ (some e), ctx, _, _, h, he =>
    (e.resolve_enters ctx (by simpa [checkReturn] using h) he).after of_checkReturn (checkReturn_table ..)
  | .breaks _, _, _, _, _, he => ⟨(of_reportIf he).2, reportIf_table ..⟩
  | .classDecl name superclass methods statics, ctx, r, scopes, h, he => by
    let decl : Stmt := .classDecl name superclass methods statics
    have hi := introduce_mirrors h name
    have hp := readSuperclass_mirrors hi name superclass decl
    have hs := resolveStatics_mirrors statics { ctx with classKind := .ofSuperclass superclass, inStatic := true } hp
    have hm := resolveMethods_enters methods _ (openImplicit_mirrors (s := .ofReceiver decl) hs rfl)
      (by simpa [Stmt.resolve] using he)
    have hs := resolveStatics_enters statics _ hp hm.errors
    have hc := (readSuperclass_enters hi hs.errors).after of_introduce (introduce_table ..)
    exact ((hc.trans hs).trans (hm.after id rfl)).thenTable (by simp [Stmt.resolve])

theorem resolveStmts_enters : ∀ (sts : List Stmt) (ctx : Context) {r : Resolution} {scopes : Scopes},
    Mirrors r.scopes scopes → (resolveStmts sts ctx r).errors = [] →
    Enters r (resolveStmts sts ctx r) (occurrencesStmts sts scopes)
  | [], _, _, _, _, he => .refl he
  | st :: sts, ctx, _, _, h, he => by
    have hr := resolveStmts_enters sts ctx (st.resolve_mirrors ctx h) he
    exact (st.resolve_enters ctx h hr.errors).trans hr

theorem Routine.resolve_enters : ∀ (routine : Routine) (ctx : Context) {r : Resolution} {scopes : Scopes},
    Mirrors r.scopes scopes → (routine.resolve ctx r).errors = [] →
    Enters r (routine.resolve ctx r) (routine.occurrences scopes)
  | ⟨params, body⟩, ctx, _, _, h, he => by
    have hp := parameters_mirrors h ⟨params, body⟩
    have hb := resolveStmts_enters body ctx hp (by simpa [Routine.resolve] using he)
    exact (hb.after of_introduceAll (introduceAll_table ..)).opened.thenTable (closeScope_table _)

theorem Method.resolve_enters : ∀ (m : Method) (body : BodyKind) (ctx : Context) {r : Resolution} {scopes : Scopes},
    Mirrors r.scopes scopes → (m.resolve body ctx r).errors = [] →
    Enters r (m.resolve body ctx r) (m.occurrences scopes)
  | ⟨_, _, routine⟩, body, ctx, _, _, h, he => routine.resolve_enters (ctx.enter body) h he

theorem resolveMethods_enters : ∀ (ms : List Method) (ctx : Context) {r : Resolution} {scopes : Scopes},
    Mirrors r.scopes scopes → (resolveMethods ms ctx r).errors = [] →
    Enters r (resolveMethods ms ctx r) (occurrencesMethods ms scopes)
  | [], _, _, _, _, he => .refl he
  | m :: ms, ctx, _, _, h, he => by
    have hr := resolveMethods_enters ms ctx (m.resolve_mirrors m.bodyKind ctx h) he
    exact (m.resolve_enters m.bodyKind ctx h hr.errors).trans hr

theorem resolveStatics_enters : ∀ (ms : List Method) (ctx : Context) {r : Resolution} {scopes : Scopes},
    Mirrors r.scopes scopes → (resolveStatics ms ctx r).errors = [] →
    Enters r (resolveStatics ms ctx r) (occurrencesMethods ms scopes)
  | [], _, _, _, _, he => .refl he
  | m :: ms, ctx, _, _, h, he => by
    have hr := resolveStatics_enters ms ctx (m.resolve_mirrors .function ctx h) he
    exact (m.resolve_enters .function ctx h hr.errors).trans hr

end

end Lox
