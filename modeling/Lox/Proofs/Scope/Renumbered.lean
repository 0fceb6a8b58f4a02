import Lox.Proofs.Scope.Joined
import Lox.Proofs.Syntax.Recoded

/-!
# Resolving with other identities

Identities only say where an entry of the binding table stands. A program with other ones is resolved to the same
entries in other places, and with the same errors and warnings. In particular there may be a gap in the identities, in
which no entry stands.
-/

namespace Lox

/-- Other identities, and tables with the entries for them. -/
structure Renumbering where
  idOf : NodeId → NodeId
  tables : BindingTable → BindingTable
  empty : tables .empty = .empty
  insert : ∀ t id depth, tables (t.insert id depth) = (tables t).insert (idOf id) depth
  merge : ∀ t later, tables (t.merge later) = (tables t).merge (tables later)
  get? : ∀ t id, (tables t).get? (idOf id) = t.get? id

namespace Renumbering

/-- Lines stay. -/
def code (ν : Renumbering) : Recoding := ⟨id, ν.idOf⟩

/-! ## A gap in the identities -/

section
variable (start width : Nat)

/-- The identities from `start` on are moved up. -/
def gapId (id : Nat) : Nat := if id < start then id else id + width

/-- The size of a table with the gap. -/
def gapSize (size : Nat) : Nat := if size ≤ start then size else size + width

/-- The table with no entries in the gap. -/
def gapTable (t : BindingTable) : BindingTable :=
  ⟨Array.ofFn fun i : Fin (gapSize start width t.depths.size) =>
    if i < start then t.get? i else if i < start + width then none else t.get? (i - width)⟩

theorem get?_gapTable (t : BindingTable) (id : Nat) : (gapTable start width t).get? id =
    if id < start then t.get? id else if id < start + width then none else t.get? (id - width) := by
  by_cases h : id < gapSize start width t.depths.size
  · simp [gapTable, BindingTable.get?, h]
  · have beyond : ∀ j, t.depths.size ≤ j → t.get? j = none := fun j hj => by
      simp [BindingTable.get?, Array.getElem?_eq_none hj]
    have hnone : (gapTable start width t).get? id = none := by simp [gapTable, BindingTable.get?, h]
    rw [hnone]
    unfold gapSize at h
    split
    · exact (beyond id (by split at h <;> omega)).symm
    · split
      · rfl
      · exact (beyond (id - width) (by split at h <;> omega)).symm

theorem size_gapTable (t : BindingTable) : (gapTable start width t).depths.size = gapSize start width t.depths.size :=
  Array.size_ofFn

theorem gapSize_max (m n : Nat) : gapSize start width (max m n) = max (gapSize start width m) (gapSize start width n) := by
  unfold gapSize
  split <;> split <;> split <;> omega

theorem gapTable_insert (t : BindingTable) (id depth : Nat) :
    gapTable start width (t.insert id depth) = (gapTable start width t).insert (gapId start width id) depth := by
  refine BindingTable.ext_get? ?_ fun (j : Nat) => ?_
  · have hid : gapSize start width (id + 1) = gapId start width id + 1 := by
      unfold gapSize gapId
      split <;> split <;> omega
    rw [size_gapTable, BindingTable.size_insert, BindingTable.size_insert, size_gapTable, gapSize_max, hid]
  · simp only [get?_gapTable, BindingTable.get?_insert, gapId]
    by_cases hj : j < start
    · rw [if_pos hj, if_pos hj]
      exact if_congr (by split <;> omega) rfl rfl
    · rw [if_neg hj, if_neg hj]
      by_cases hw : j < start + width
      · rw [if_pos hw, if_pos hw, if_neg (by split <;> omega)]
      · rw [if_neg hw, if_neg hw]
        exact if_congr (by split <;> omega) rfl rfl

theorem get?_gapId (t : BindingTable) (id : Nat) : (gapTable start width t).get? (gapId start width id) = t.get? id := by
  rw [get?_gapTable, gapId]
  by_cases h : id < start
  · rw [if_pos h, if_pos h]
  · rw [if_neg h, if_neg (by omega), if_neg (by omega), Nat.add_sub_cancel]

theorem gapTable_merge (t later : BindingTable) :
    gapTable start width (t.merge later) = (gapTable start width t).merge (gapTable start width later) := by
  refine BindingTable.ext_get? ?_ fun j => ?_
  · simp only [size_gapTable, BindingTable.size_merge, gapSize_max]
  · simp only [get?_gapTable, BindingTable.get?_merge]
    split
    · rfl
    · split <;> rfl

/-- No identities from `start` on up to `start + width`. -/
def gap : Renumbering where
  idOf := gapId start width
  tables := gapTable start width
  empty := BindingTable.ext_get? (by rw [size_gapTable]; exact if_pos (Nat.zero_le _)) fun id => by simp [get?_gapTable]
  insert := gapTable_insert start width
  merge := gapTable_merge start width
  get? := get?_gapId start width

end

end Renumbering

/-! ## Steps of the resolution -/

variable (ν : Renumbering)

/-- The same findings, with the entries in other places. -/
def Resolution.renumbered (r : Resolution) : Resolution := { r with table := ν.tables r.table }

namespace Resolution

variable (r : Resolution)

theorem report_renumbered (site : Site) (fault : ScopeFault) :
    (r.renumbered ν).report site fault = (r.report site fault).renumbered ν := by
  unfold report
  have he : (r.renumbered ν).errors = r.errors := rfl
  rw [he]
  split <;> rfl

theorem reportIf_renumbered (found : Bool) (site : Site) (fault : ScopeFault) :
    (r.renumbered ν).reportIf found site fault = (r.reportIf found site fault).renumbered ν := by
  unfold reportIf
  split
  · exact r.report_renumbered ν site fault
  · rfl

theorem warn_renumbered (w : Warning) : (r.renumbered ν).warn w = (r.warn w).renumbered ν := by
  unfold warn
  have hw : (r.renumbered ν).warnings = r.warnings := rfl
  rw [hw]
  split <;> rfl

theorem warnAll_renumbered : ∀ (ws : List Warning) (r : Resolution),
    ws.foldl warn (r.renumbered ν) = (ws.foldl warn r).renumbered ν
  | [], _ => rfl
  | w :: ws, r => by rw [List.foldl_cons, List.foldl_cons, warn_renumbered, warnAll_renumbered ws]

theorem closeScope_renumbered : (r.renumbered ν).closeScope = r.closeScope.renumbered ν := by
  unfold closeScope
  have hs : (r.renumbered ν).scopes = r.scopes := rfl
  rw [hs]
  cases r.scopes with
  | nil => rfl
  | cons scope outer => exact warnAll_renumbered ν scope.unused { r with scopes := outer }

theorem declare_renumbered (name : Name) : (r.renumbered ν).declare name = (r.declare name).renumbered ν := by
  unfold declare
  have hs : (r.renumbered ν).scopes = r.scopes := rfl
  rw [hs]
  cases r.scopes with
  | nil => rfl
  | cons scope outer => exact reportIf_renumbered ν { r with scopes := _ } _ _ _

theorem define_renumbered (name : Name) : (r.renumbered ν).define name = (r.define name).renumbered ν := by
  unfold define
  have hs : (r.renumbered ν).scopes = r.scopes := rfl
  rw [hs]
  cases r.scopes with
  | nil => rfl
  | cons scope outer =>
    dsimp only
    cases scope.get? name.text <;> rfl

theorem introduce_renumbered (name : Name) : (r.renumbered ν).introduce name = (r.introduce name).renumbered ν := by
  unfold introduce
  rw [declare_renumbered, define_renumbered]

theorem introduceAll_renumbered : ∀ (names : List Name) (r : Resolution),
    names.foldl introduce (r.renumbered ν) = (names.foldl introduce r).renumbered ν
  | [], _ => rfl
  | name :: names, r => by rw [List.foldl_cons, List.foldl_cons, introduce_renumbered, introduceAll_renumbered names]

theorem use_renumbered (id : NodeId) (name : String) :
    (r.renumbered ν).use (ν.idOf id) name = (r.use id name).renumbered ν := by
  unfold use
  have hs : (r.renumbered ν).scopes = r.scopes := rfl
  rw [hs]
  cases useIn name r.scopes with
  | none => rfl
  | some found => simp only [renumbered, ν.insert]

theorem readVariable_renumbered (id : NodeId) (name : Name) :
    (r.renumbered ν).readVariable (ν.idOf id) name = (r.readVariable id name).renumbered ν := by
  have ho : (r.renumbered ν).inOwnInitializer name.text = r.inOwnInitializer name.text := rfl
  rw [readVariable, readVariable, ho, reportIf_renumbered, use_renumbered]

theorem readThis_renumbered (ctx : Context) (id : NodeId) (line : Nat) :
    (r.renumbered ν).readThis ctx (ν.idOf id) line = (r.readThis ctx id line).renumbered ν := by
  unfold readThis
  split
  · exact r.report_renumbered ν _ _
  · split
    · exact r.report_renumbered ν _ _
    · exact r.use_renumbered ν id "this"

theorem readSuper_renumbered (ctx : Context) (id : NodeId) (line : Nat) :
    (r.renumbered ν).readSuper ctx (ν.idOf id) line = (r.readSuper ctx id line).renumbered ν := by
  unfold readSuper
  split
  · exact r.report_renumbered ν _ _
  · exact r.report_renumbered ν _ _
  · split
    · exact r.report_renumbered ν _ _
    · exact r.use_renumbered ν id "super"

theorem checkReturn_renumbered (ctx : Context) (form : ReturnForm) (line : Nat) (hasValue : Bool) :
    (r.renumbered ν).checkReturn ctx form line hasValue = (r.checkReturn ctx form line hasValue).renumbered ν := by
  rw [checkReturn, checkReturn, reportIf_renumbered, reportIf_renumbered]

theorem readSuperclass_renumbered (className : Name) (superclass : Option Reference) :
    (r.renumbered ν).readSuperclass className (superclass.map (Reference.recoded ν.code)) =
      (r.readSuperclass className superclass).renumbered ν := by
  cases superclass with
  | none => rfl
  | some ref =>
    have hread := readVariable_renumbered ν
      (r.reportIf (ref.name.text = className.text) ref.name.site .inheritsFromItself) ref.id ref.name
    rw [← reportIf_renumbered] at hread
    exact congrArg (openImplicit · "super") hread

theorem closeSuperclass_renumbered (superclass : Option Reference) :
    (r.renumbered ν).closeSuperclass (superclass.map (Reference.recoded ν.code)) = (r.closeSuperclass superclass).renumbered ν := by
  cases superclass with
  | none => rfl
  | some ref => exact r.closeScope_renumbered ν

end Resolution

/-! ## Programs -/

open Resolution

mutual

theorem Expr.resolve_renumbered : ∀ (e : Expr) (ctx : Context) (r : Resolution),
    (e.recoded ν.code).resolve ctx (r.renumbered ν) = (e.resolve ctx r).renumbered ν
  | .literal _, _, _ => rfl
  | .unary _ _ e, ctx, r => e.resolve_renumbered ctx r
  | .binary _ _ left right, ctx, r => by
    rw [Expr.recoded, Expr.resolve, Expr.resolve, left.resolve_renumbered, right.resolve_renumbered]
  | .logical _ _ left right, ctx, r => by
    rw [Expr.recoded, Expr.resolve, Expr.resolve, left.resolve_renumbered, right.resolve_renumbered]
  | .group e, ctx, r => e.resolve_renumbered ctx r
  | .var id name, _, r => r.readVariable_renumbered ν id name
  | .assign id name value, ctx, r => by
    rw [Expr.recoded, Expr.resolve, Expr.resolve, value.resolve_renumbered]
    exact use_renumbered ν _ id name.text
  | .call callee _ arguments, ctx, r => by
    rw [Expr.recoded, Expr.resolve, Expr.resolve, callee.resolve_renumbered, resolveExprs_renumbered arguments]
  | .lambda _ routine, ctx, r => routine.resolve_renumbered (ctx.enter .function) r
  | .get object _, ctx, r => object.resolve_renumbered ctx r
  | .set object _ value, ctx, r => by
    rw [Expr.recoded, Expr.resolve, Expr.resolve, object.resolve_renumbered, value.resolve_renumbered]
  | .this id line, ctx, r => r.readThis_renumbered ν ctx id line
  | .super id line _, ctx, r => r.readSuper_renumbered ν ctx id line

theorem resolveExprs_renumbered : ∀ (es : List Expr) (ctx : Context) (r : Resolution),
    resolveExprs (recodedExprs ν.code es) ctx (r.renumbered ν) = (resolveExprs es ctx r).renumbered ν
  | [], _, _ => rfl
  | e :: es, ctx, r => by
    rw [recodedExprs, resolveExprs, resolveExprs, e.resolve_renumbered, resolveExprs_renumbered es]

theorem Stmt.resolve_renumbered : ∀ (st : Stmt) (ctx : Context) (r : Resolution),
    (st.recoded ν.code).resolve ctx (r.renumbered ν) = (st.resolve ctx r).renumbered ν
  | .expr e, ctx, r => e.resolve_renumbered ctx r
  | .print e, ctx, r => e.resolve_renumbered ctx r
  | .varDecl name none, _, r => r.introduce_renumbered ν name
  | .varDecl name (some e), ctx, r => by
    have he := e.resolve_renumbered ctx (r.declare name)
    rw [← declare_renumbered] at he
    rw [Stmt.recoded, Stmt.resolve, Stmt.resolve, ← define_renumbered, ← he]
    rfl
  | .block body, ctx, r => by
    rw [Stmt.recoded, Stmt.resolve, Stmt.resolve, ← closeScope_renumbered, ← resolveStmts_renumbered body]
    rfl
  | .branch condition thenBranch none, ctx, r => by
    rw [Stmt.recoded, Stmt.resolve, Stmt.resolve, condition.resolve_renumbered, thenBranch.resolve_renumbered]
  | .branch condition thenBranch (some elseBranch), ctx, r => by
    rw [Stmt.recoded, Stmt.resolve, Stmt.resolve, condition.resolve_renumbered, thenBranch.resolve_renumbered,
      elseBranch.resolve_renumbered]
  | .loop condition body, ctx, r => by
    rw [Stmt.recoded, Stmt.resolve, Stmt.resolve, condition.resolve_renumbered, body.resolve_renumbered]
  | .funDecl name routine, ctx, r => by
    rw [Stmt.recoded, Stmt.resolve, Stmt.resolve, ← routine.resolve_renumbered, ← introduce_renumbered]
    rfl
  | .returns form line none, ctx, r => r.checkReturn_renumbered ν ctx form line false
  | .returns form line (some e), ctx, r => by
    rw [Stmt.recoded, Stmt.resolve, Stmt.resolve, ← e.resolve_renumbered, ← checkReturn_renumbered]
    rfl
  | .breaks line, ctx, r => r.reportIf_renumbered ν _ _ _
  | .classDecl name superclass methods statics, ctx, r => by
    have hkind : ClassKind.ofSuperclass (superclass.map (Reference.recoded ν.code)) = .ofSuperclass superclass := by
      cases superclass <;> rfl
    have hopen : ∀ r : Resolution, (r.renumbered ν).openImplicit "this" = (r.openImplicit "this").renumbered ν := fun _ => rfl
    have hname : name.relined ν.code.lineOf = name := rfl
    rw [Stmt.recoded, Stmt.resolve, Stmt.resolve, hkind, hname, introduce_renumbered, readSuperclass_renumbered,
      resolveStatics_renumbered statics, hopen, resolveMethods_renumbered methods, closeScope_renumbered,
      closeSuperclass_renumbered]

theorem resolveStmts_renumbered : ∀ (sts : List Stmt) (ctx : Context) (r : Resolution),
    resolveStmts (recodedStmts ν.code sts) ctx (r.renumbered ν) = (resolveStmts sts ctx r).renumbered ν
  | [], _, _ => rfl
  | st :: sts, ctx, r => by
    rw [recodedStmts, resolveStmts, resolveStmts, st.resolve_renumbered, resolveStmts_renumbered sts]

theorem Routine.resolve_renumbered : ∀ (routine : Routine) (ctx : Context) (r : Resolution),
    (routine.recoded ν.code).resolve ctx (r.renumbered ν) = (routine.resolve ctx r).renumbered ν
  | ⟨params, body⟩, ctx, r => by
    have hparams : params.map (Name.relined ν.code.lineOf) = params := List.map_id params
    rw [Routine.recoded, Routine.resolve, Routine.resolve, hparams, ← closeScope_renumbered, ← resolveStmts_renumbered body,
      ← introduceAll_renumbered]
    rfl

theorem Method.resolve_renumbered : ∀ (m : Method) (body : BodyKind) (ctx : Context) (r : Resolution),
    (m.recoded ν.code).resolve body ctx (r.renumbered ν) = (m.resolve body ctx r).renumbered ν
  | ⟨_, _, routine⟩, body, ctx, r => routine.resolve_renumbered (ctx.enter body) r

theorem resolveMethods_renumbered : ∀ (ms : List Method) (ctx : Context) (r : Resolution),
    resolveMethods (recodedMethods ν.code ms) ctx (r.renumbered ν) = (resolveMethods ms ctx r).renumbered ν
  | [], _, _ => rfl
  | m :: ms, ctx, r => by
    have hkind : (m.recoded ν.code).bodyKind = m.bodyKind := by cases m; rfl
    rw [recodedMethods, resolveMethods, resolveMethods, hkind, m.resolve_renumbered, resolveMethods_renumbered ms]

theorem resolveStatics_renumbered : ∀ (ms : List Method) (ctx : Context) (r : Resolution),
    resolveStatics (recodedMethods ν.code ms) ctx (r.renumbered ν) = (resolveStatics ms ctx r).renumbered ν
  | [], _, _ => rfl
  | m :: ms, ctx, r => by
    rw [recodedMethods, resolveStatics, resolveStatics, m.resolve_renumbered, resolveStatics_renumbered ms]

end

theorem resolveProgram_renumbered (program : List Stmt) :
    resolveProgram (recodedStmts ν.code program) = (resolveProgram program).renumbered ν := by
  have hempty : (({} : Resolution).renumbered ν) = {} := by rw [Resolution.renumbered, ν.empty]
  rw [resolveProgram, resolveProgram, ← resolveStmts_renumbered, hempty]

end Lox
