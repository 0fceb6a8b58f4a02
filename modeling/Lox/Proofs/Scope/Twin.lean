import Lox.Proofs.Scope.Table
import Lox.Proofs.Syntax.BareTwin

/-!
# Resolving twins

Groups and identities do not matter where names are resolved. What is found in a piece of code is found in its twin, and nodes
that correspond get the same entry.
-/

namespace Lox

variable {T : Ties}

/-- No identity is tied to two others. -/
def Ties.OneToOne (T : Ties) : Prop := ∀ i j i' j', T.ids i j → T.ids i' j' → (i = i' ↔ j = j')

namespace Resolution

/-- The same has been found, and identities that are tied have the same entry. -/
structure Twin (T : Ties) (r r' : Resolution) : Prop where
  ties : T.OneToOne
  scopes : r'.scopes = r.scopes
  errors : r'.errors = r.errors
  warnings : r'.warnings = r.warnings
  table : ∀ i j, T.ids i j → r'.table.get? j = r.table.get? i

namespace Twin

variable {r r' : Resolution}

theorem start (hT : T.OneToOne) : Twin T {} {} := ⟨hT, rfl, rfl, rfl, fun _ _ _ => rfl⟩

theorem inScopes (h : Twin T r r') (scopes : List Scope) : Twin T { r with scopes } { r' with scopes } := { h with scopes := rfl }

theorem report (h : Twin T r r') (site : Site) (fault : ScopeFault) : Twin T (r.report site fault) (r'.report site fault) := by
  unfold Resolution.report
  rw [h.errors]
  split
  · exact h
  · exact { h with errors := rfl }

theorem reportIf (h : Twin T r r') (found : Bool) (site : Site) (fault : ScopeFault) :
    Twin T (r.reportIf found site fault) (r'.reportIf found site fault) := by
  unfold Resolution.reportIf
  split
  · exact h.report site fault
  · exact h

theorem warn (h : Twin T r r') (w : Warning) : Twin T (r.warn w) (r'.warn w) := by
  unfold Resolution.warn
  rw [h.warnings]
  split
  · exact h
  · exact { h with warnings := rfl }

theorem warnAll : ∀ {r r' : Resolution}, Twin T r r' → ∀ ws : List Warning, Twin T (ws.foldl Resolution.warn r) (ws.foldl Resolution.warn r')
  | _, _, h, [] => h
  | _, _, h, w :: ws => (h.warn w).warnAll ws

theorem openScope (h : Twin T r r') : Twin T r.openScope r'.openScope := { h with scopes := congrArg (Dict.empty :: ·) h.scopes }

theorem openImplicit (h : Twin T r r') (name : String) : Twin T (r.openImplicit name) (r'.openImplicit name) :=
  { h with scopes := congrArg (_ :: ·) h.scopes }

theorem closeScope (h : Twin T r r') : Twin T r.closeScope r'.closeScope := by
  unfold Resolution.closeScope
  rw [h.scopes]
  cases r.scopes with
  | nil => exact h
  | cons scope outer => exact (h.inScopes outer).warnAll scope.unused

theorem declare (h : Twin T r r') (name : Name) : Twin T (r.declare name) (r'.declare name) := by
  unfold Resolution.declare
  rw [h.scopes]
  cases r.scopes with
  | nil => exact h
  | cons scope outer => exact (h.inScopes _).reportIf _ _ _

theorem define (h : Twin T r r') (name : Name) : Twin T (r.define name) (r'.define name) := by
  unfold Resolution.define
  rw [h.scopes]
  cases r.scopes with
  | nil => exact h
  | cons scope outer =>
    dsimp only
    cases scope.get? name.text with
    | none => exact h
    | some entry => exact h.inScopes _

theorem introduce (h : Twin T r r') (name : Name) : Twin T (r.introduce name) (r'.introduce name) := (h.declare name).define name

theorem introduceAll : ∀ {r r' : Resolution}, Twin T r r' → ∀ names : List Name,
    Twin T (names.foldl Resolution.introduce r) (names.foldl Resolution.introduce r')
  | _, _, h, [] => h
  | _, _, h, name :: names => (h.introduce name).introduceAll names

theorem checkReturn (h : Twin T r r') (ctx : Context) (form : ReturnForm) (line : Nat) (hasValue : Bool) :
    Twin T (r.checkReturn ctx form line hasValue) (r'.checkReturn ctx form line hasValue) :=
  (h.reportIf _ _ _).reportIf _ _ _

/-! ### Entries -/

section
variable {id id' : NodeId}

theorem use (h : Twin T r r') (hi : T.ids id id') (name : String) : Twin T (r.use id name) (r'.use id' name) := by
  unfold Resolution.use
  rw [h.scopes]
  cases useIn name r.scopes with
  | none => exact h
  | some found =>
    refine { h.inScopes found.2 with table := fun i j hij => ?_ }
    rw [BindingTable.get?_insert, BindingTable.get?_insert, h.table i j hij]
    exact if_congr (h.ties i j id id' hij hi).symm rfl rfl

theorem readVariable (h : Twin T r r') (hi : T.ids id id') (name : Name) :
    Twin T (r.readVariable id name) (r'.readVariable id' name) := by
  have hown : r'.inOwnInitializer name.text = r.inOwnInitializer name.text := by
    unfold inOwnInitializer
    rw [h.scopes]
  unfold Resolution.readVariable
  rw [hown]
  exact (h.reportIf _ _ _).use hi name.text

theorem readThis (h : Twin T r r') (ctx : Context) (hi : T.ids id id') (line : Nat) :
    Twin T (r.readThis ctx id line) (r'.readThis ctx id' line) := by
  unfold Resolution.readThis
  split
  · exact h.report _ _
  · split
    · exact h.report _ _
    · exact h.use hi "this"

theorem readSuper (h : Twin T r r') (ctx : Context) (hi : T.ids id id') (line : Nat) :
    Twin T (r.readSuper ctx id line) (r'.readSuper ctx id' line) := by
  unfold Resolution.readSuper
  split
  · exact h.report _ _
  · exact h.report _ _
  · split
    · exact h.report _ _
    · exact h.use hi "super"

theorem readSuperclass {ref ref' : Option Reference} (h : Twin T r r') (className : Name) (href : Option.Rel (Reference.Twin T) ref ref') :
    Twin T (r.readSuperclass className ref) (r'.readSuperclass className ref') := by
  cases href with
  | none => exact h
  | some href =>
    simp only [Resolution.readSuperclass, href.name]
    exact ((h.reportIf _ _ _).readVariable href.ids _).openImplicit "super"

end

theorem closeSuperclass {ref ref' : Option Reference} (h : Twin T r r') (href : Option.Rel (Reference.Twin T) ref ref') :
    Twin T (r.closeSuperclass ref) (r'.closeSuperclass ref') := by
  cases href with
  | none => exact h
  | some => exact h.closeScope

end Twin

end Resolution

theorem ClassKind.ofSuperclass_twin {ref ref' : Option Reference} (h : Option.Rel (Reference.Twin T) ref ref') :
    ofSuperclass ref' = ofSuperclass ref := by
  cases h <;> rfl

/-! ## Programs -/

mutual

theorem Expr.Twin.resolve {e e' : Expr} (he : e.Twin T e') {r r' : Resolution} (ctx : Context) (h : r.Twin T r') :
    (e.resolve ctx r).Twin T (e'.resolve ctx r') := by
  match he with
  | .literal _ => exact h
  | .unary he => exact he.resolve ctx h
  | .binary hl hr => exact hr.resolve ctx (hl.resolve ctx h)
  | .logical hl hr => exact hr.resolve ctx (hl.resolve ctx h)
  | .groupLeft he => exact he.resolve ctx h
  | .groupRight he => exact he.resolve ctx h
  | .var hi => exact h.readVariable hi _
  | .assign he hi => exact (he.resolve ctx h).use hi _
  | .call hf hargs => exact hargs.resolve ctx (hf.resolve ctx h)
  | .lambda hr => exact hr.resolve (ctx.enter .function) h
  | .get he => exact he.resolve ctx h
  | .set he hv => exact hv.resolve ctx (he.resolve ctx h)
  | .this hi => exact h.readThis ctx hi _
  | .super hi => exact h.readSuper ctx hi _

theorem TwinExprs.resolve {es es' : List Expr} (hes : TwinExprs T es es') {r r' : Resolution} (ctx : Context) (h : r.Twin T r') :
    (resolveExprs es ctx r).Twin T (resolveExprs es' ctx r') := by
  match hes with
  | .nil => exact h
  | .cons he hes => exact hes.resolve ctx (he.resolve ctx h)

theorem Stmt.Twin.resolve {st st' : Stmt} (hst : st.Twin T st') {r r' : Resolution} (ctx : Context) (h : r.Twin T r') :
    (st.resolve ctx r).Twin T (st'.resolve ctx r') := by
  match hst with
  | .expr he => exact he.resolve ctx h
  | .print he => exact he.resolve ctx h
  | .declared name => exact h.introduce name
  | .initialized he => exact (he.resolve ctx (h.declare _)).define _
  | .block _ hsts => exact (hsts.resolve ctx h.openScope).closeScope
  | .branch hc hst => exact hst.resolve ctx (hc.resolve ctx h)
  | .branches hc hst hother => exact hother.resolve ctx (hst.resolve ctx (hc.resolve ctx h))
  | .loop hc hst => exact hst.resolve { ctx with inLoop := true } (hc.resolve ctx h)
  | .funDecl hr => exact hr.resolve (ctx.enter .function) (h.introduce _)
  | .returns form line => exact h.checkReturn ctx form line false
  | .returned he => exact he.resolve ctx (h.checkReturn ctx _ _ true)
  | .breaks _ => exact h.reportIf _ _ _
  | @Stmt.Twin.classDecl _ name ref ref' _ _ _ _ href hms hss =>
    unfold Stmt.resolve
    rw [ClassKind.ofSuperclass_twin href]
    have h := (h.introduce name).readSuperclass name href
    have h := hss.resolveStatics { ctx with classKind := .ofSuperclass ref, inStatic := true } h
    have h := hms.resolveMethods { ctx with classKind := .ofSuperclass ref, inStatic := false } (h.openImplicit "this")
    exact h.closeScope.closeSuperclass href

theorem TwinStmts.resolve {sts sts' : List Stmt} (hsts : TwinStmts T sts sts') {r r' : Resolution} (ctx : Context) (h : r.Twin T r') :
    (resolveStmts sts ctx r).Twin T (resolveStmts sts' ctx r') := by
  match hsts with
  | .nil => exact h
  | .cons hst hsts => exact hsts.resolve ctx (hst.resolve ctx h)

theorem Routine.Twin.resolve {f f' : Routine} (hf : f.Twin T f') {r r' : Resolution} (ctx : Context) (h : r.Twin T r') :
    (f.resolve ctx r).Twin T (f'.resolve ctx r') := by
  match hf with
  | .mk _ hbody => exact (hbody.resolve ctx (h.openScope.introduceAll _)).closeScope

theorem TwinMethods.resolveMethods {ms ms' : List Method} (hms : TwinMethods T ms ms') {r r' : Resolution} (ctx : Context)
    (h : r.Twin T r') : (resolveMethods ms ctx r).Twin T (resolveMethods ms' ctx r') := by
  match hms with
  | .nil => exact h
  | .cons hf hms => exact hms.resolveMethods ctx (hf.resolve (ctx.enter _) h)

theorem TwinMethods.resolveStatics {ms ms' : List Method} (hms : TwinMethods T ms ms') {r r' : Resolution} (ctx : Context)
    (h : r.Twin T r') : (resolveStatics ms ctx r).Twin T (resolveStatics ms' ctx r') := by
  match hms with
  | .nil => exact h
  | .cons hf hms => exact hms.resolveStatics ctx (hf.resolve (ctx.enter .function) h)

end

theorem resolveProgram_twin (hT : T.OneToOne) {sts sts' : List Stmt} (hsts : TwinStmts T sts sts') :
    (resolveProgram sts).Twin T (resolveProgram sts') :=
  hsts.resolve {} (.start hT)

/-! ## Programs with the same bare code -/

/-- Identities are tied that stand in the same places of the two programs. -/
def Ties.between (sts sts' : List Stmt) : Ties := .on fun i j => (i, j) ∈ (idsStmts sts).zip (idsStmts sts')

variable {sts sts' : List Stmt}

theorem Ties.between_oneToOne (hn : (idsStmts sts).Nodup) (hn' : (idsStmts sts').Nodup) : (Ties.between sts sts').OneToOne := by
  intro i j i' j' h h'
  obtain ⟨n, hn₁⟩ := List.mem_iff_getElem?.mp h
  obtain ⟨k, hk⟩ := List.mem_iff_getElem?.mp h'
  obtain ⟨hi, hj⟩ := List.getElem?_zip_eq_some.mp hn₁
  obtain ⟨hi', hj'⟩ := List.getElem?_zip_eq_some.mp hk
  have hlt := (List.getElem?_eq_some_iff.mp hi).1
  have hlt' := (List.getElem?_eq_some_iff.mp hj).1
  constructor
  · rintro rfl
    obtain rfl := (List.getElem?_inj hlt hn).mp (hi.trans hi'.symm)
    exact Option.some.inj (hj.symm.trans hj')
  · rintro rfl
    obtain rfl := (List.getElem?_inj hlt' hn').mp (hj.trans hj'.symm)
    exact Option.some.inj (hi.symm.trans hi')

theorem resolveProgram_bare (hb : bareStmts false sts = bareStmts false sts') (hn : (idsStmts sts).Nodup)
    (hn' : (idsStmts sts').Nodup) : (resolveProgram sts).Twin (.between sts sts') (resolveProgram sts') :=
  resolveProgram_twin (Ties.between_oneToOne hn hn') (twinStmts_of_bare sts sts' hb fun _ => id)

/-- The depths of all identities of a program, in the order of the code. -/
def programDepths (program : List Stmt) : List (Option Nat) := (idsStmts program).map (resolveProgram program).table.get?

theorem programDepths_bare (hb : bareStmts false sts = bareStmts false sts') (hn : (idsStmts sts).Nodup) (hn' : (idsStmts sts').Nodup) :
    programDepths sts' = programDepths sts := by
  have hlength : (idsStmts sts').length = (idsStmts sts).length := by
    rw [← length_idsStmts_bare false, ← hb, length_idsStmts_bare]
  refine List.ext_getElem (by simpa [programDepths] using hlength) fun n hn' hn => ?_
  simp only [programDepths, List.length_map, List.getElem_map] at hn hn' ⊢
  refine (resolveProgram_bare hb ‹_› ‹_›).table _ _ (List.mem_iff_getElem.mpr ⟨n, ?_, ?_⟩)
  · rw [List.length_zip]
    exact Nat.lt_min.mpr ⟨hn, hn'⟩
  · exact List.getElem_zip

end Lox
