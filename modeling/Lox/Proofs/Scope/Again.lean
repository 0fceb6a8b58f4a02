import Lox.Proofs.Scope.Marked
import Lox.Proofs.Scope.Twin
import Lox.Proofs.Syntax.Fresh

/-!
# Resolving a piece of code once more

Twins are resolved one after the other. The second walk goes through scopes in which the first one has marked its uses, and it
meets the findings of the first one as already reported: it finds the same depths, and reports nothing.
-/

namespace Lox

/-! ## Depths in a table -/

namespace BindingTable

/-- The table with these depths entered in turn. Where there is no depth there is no entry. -/
def fill (t : BindingTable) : List (NodeId × Option Nat) → BindingTable
  | [] => t
  | (id, some depth) :: es => (t.insert id depth).fill es
  | (_, none) :: es => t.fill es

theorem fill_append : ∀ (es es' : List (NodeId × Option Nat)) (t : BindingTable), t.fill (es ++ es') = (t.fill es).fill es'
  | [], _, _ => rfl
  | (id, some depth) :: es, es', t => fill_append es es' (t.insert id depth)
  | (_, none) :: es, es', t => fill_append es es' t

theorem get?_fill_of_not_mem {j : NodeId} : ∀ {ids : List NodeId} (depths : List (Option Nat)) (t : BindingTable), j ∉ ids →
    (t.fill (ids.zip depths)).get? j = t.get? j
  | [], _, _, _ => rfl
  | _ :: _, [], _, _ => rfl
  | id :: ids, none :: depths, t, h => get?_fill_of_not_mem depths t (List.not_mem_of_not_mem_cons h)
  | id :: ids, some depth :: depths, t, h => by
    rw [List.zip_cons_cons, fill, get?_fill_of_not_mem depths _ (List.not_mem_of_not_mem_cons h), get?_insert,
      if_neg (List.ne_of_not_mem_cons h)]

/-- Identities that are new to the table are given their depths. -/
theorem map_get?_fill : ∀ {ids : List NodeId} {depths : List (Option Nat)} {t : BindingTable}, depths.length = ids.length →
    ids.Nodup → (∀ i ∈ ids, t.get? i = none) → ids.map (t.fill (ids.zip depths)).get? = depths
  | [], [], _, _, _, _ => rfl
  | id :: ids, none :: depths, t, hl, hn, ht => by
    obtain ⟨hid, hn⟩ := List.nodup_cons.mp hn
    obtain ⟨hone, ht⟩ := List.forall_mem_cons.mp ht
    rw [List.map_cons, List.zip_cons_cons, fill, map_get?_fill (Nat.succ.inj hl) hn ht, get?_fill_of_not_mem depths t hid, hone]
  | id :: ids, some depth :: depths, t, hl, hn, ht => by
    obtain ⟨hid, hn⟩ := List.nodup_cons.mp hn
    have ht' : ∀ i ∈ ids, (t.insert id depth).get? i = none := fun i hi => by
      rw [get?_insert, if_neg (ne_of_mem_of_not_mem hi hid), ht i (.tail _ hi)]
    rw [List.map_cons, List.zip_cons_cons, fill, map_get?_fill (Nat.succ.inj hl) hn ht', get?_fill_of_not_mem depths _ hid,
      get?_insert, if_pos rfl]

end BindingTable

/-! ## Two walks -/

/-- A piece of code is resolved from one resolution to the next, and its twin from a resolution in whose scopes more is used:
their nodes get the same depths. If all that the first walk has found is known to the second, it finds nothing new. -/
structure Again (r r₁ q q₁ : Resolution) (ids ids' : List NodeId) : Prop where
  scopes : Marked r₁.scopes q₁.scopes
  table : ∃ depths : List (Option Nat), depths.length = ids.length ∧ depths.length = ids'.length ∧
    r₁.table = r.table.fill (ids.zip depths) ∧ q₁.table = q.table.fill (ids'.zip depths)
  errors : r.errors ⊆ r₁.errors
  warnings : r.warnings ⊆ r₁.warnings
  quiet : r₁.errors ⊆ q.errors → r₁.warnings ⊆ q.warnings → q₁.errors = q.errors ∧ q₁.warnings = q.warnings

namespace Again

variable {r r₁ r₂ q q₁ q₂ : Resolution} {ids ids' is is' : List NodeId}

theorem refl (h : Marked r.scopes q.scopes) : Again r r q q [] [] :=
  ⟨h, ⟨[], rfl, rfl, rfl, rfl⟩, List.Subset.refl _, List.Subset.refl _, fun _ _ => ⟨rfl, rfl⟩⟩

theorem trans (h : Again r r₁ q q₁ ids ids') (h' : Again r₁ r₂ q₁ q₂ is is') : Again r r₂ q q₂ (ids ++ is) (ids' ++ is') where
  scopes := h'.scopes
  table := by
    obtain ⟨ds, hl, hl', ht, ht'⟩ := h.table
    obtain ⟨ds', hs, hs', hu, hu'⟩ := h'.table
    refine ⟨ds ++ ds', by simp [hl, hs], by simp [hl', hs'], ?_, ?_⟩
    · rw [List.zip_append hl.symm, BindingTable.fill_append, ← ht, hu]
    · rw [List.zip_append hl'.symm, BindingTable.fill_append, ← ht', hu']
  errors := List.Subset.trans h.errors h'.errors
  warnings := List.Subset.trans h.warnings h'.warnings
  quiet he hw := by
    obtain ⟨he₁, hw₁⟩ := h.quiet (List.Subset.trans h'.errors he) (List.Subset.trans h'.warnings hw)
    obtain ⟨he₂, hw₂⟩ := h'.quiet (he₁ ▸ he) (hw₁ ▸ hw)
    exact ⟨he₂.trans he₁, hw₂.trans hw₁⟩

theorem thenStep (h : Again r r₁ q q₁ ids ids') (h' : Again r₁ r₂ q₁ q₂ [] []) : Again r r₂ q q₂ ids ids' := by
  simpa using h.trans h'

/-! ### Findings -/

theorem inScopes {scopes scopes' : List Scope} (h : Marked scopes scopes') : Again r { r with scopes } q { q with scopes := scopes' } [] [] :=
  { refl (r := { r with scopes }) (q := { q with scopes := scopes' }) h with }

theorem report (h : Marked r.scopes q.scopes) (site : Site) (fault : ScopeFault) :
    Again r (r.report site fault) q (q.report site fault) [] [] where
  scopes := by simpa using h
  table := ⟨[], rfl, rfl, by simp [BindingTable.fill], by simp [BindingTable.fill]⟩
  errors := by
    unfold Resolution.report
    split
    · exact List.Subset.refl _
    · exact List.subset_append_left ..
  warnings := by simp
  quiet he _ := by
    have hm : .scoping site fault ∈ (r.report site fault).errors := by
      unfold Resolution.report
      split
      · assumption
      · simp
    simp [Resolution.report, he hm]

theorem reportIf (h : Marked r.scopes q.scopes) (found : Bool) (site : Site) (fault : ScopeFault) :
    Again r (r.reportIf found site fault) q (q.reportIf found site fault) [] [] := by
  unfold Resolution.reportIf
  split
  · exact report h site fault
  · exact refl h

theorem warnAll_of_subset : ∀ (ws : List Warning) {q : Resolution}, ws ⊆ q.warnings → ws.foldl Resolution.warn q = q
  | [], _, _ => rfl
  | w :: ws, q, h => by
    obtain ⟨hw, hws⟩ := List.cons_subset.mp h
    have hq : q.warn w = q := if_pos hw
    rw [List.foldl_cons, hq, warnAll_of_subset ws hws]

/-! ### Scopes -/

theorem openScope (h : Marked r.scopes q.scopes) : Again r r.openScope q q.openScope [] [] :=
  inScopes (.cons (.refl _) h)

theorem openImplicit (h : Marked r.scopes q.scopes) (name : String) : Again r (r.openImplicit name) q (q.openImplicit name) [] [] :=
  inScopes (.cons (.refl _) h)

theorem closeScope (h : Marked r.scopes q.scopes) : Again r r.closeScope q q.closeScope [] [] where
  scopes := by simpa using h.tail
  table := ⟨[], rfl, rfl, by simp [BindingTable.fill], by simp [BindingTable.fill]⟩
  errors := by simp
  warnings := by
    intro w hw
    unfold Resolution.closeScope
    split
    · exact hw
    · exact (Resolution.mem_warnAll_iff ..).mpr (.inl hw)
  quiet _ hw := by
    refine ⟨by simp, ?_⟩
    unfold Resolution.closeScope at hw ⊢
    generalize r.scopes = scopes at h hw
    generalize q.scopes = scopes' at h
    cases h with
    | nil => rfl
    | @cons scope scope' outer outer' hs _ =>
      -- what is unused in the end is unused after the first walk, which has warned of it
      have hall : scope'.unused ⊆ q.warnings := fun w hu => hw ((Resolution.mem_warnAll_iff ..).mpr (.inr (hs.unused hu)))
      simp only [warnAll_of_subset _ (q := { q with scopes := outer' }) hall]

theorem declare (h : Marked r.scopes q.scopes) (name : Name) : Again r (r.declare name) q (q.declare name) [] [] := by
  unfold Resolution.declare
  generalize hr : r.scopes = scopes at h
  generalize hq : q.scopes = scopes' at h
  cases h with
  | nil => exact refl (by rw [hr, hq]; exact .nil)
  | @cons scope scope' outer outer' hs h =>
    dsimp only
    rw [hs.contains]
    let entry : Local := { isDefined := false, isUsed := scope.contains name.text, line := name.line }
    have hd : Marked (scope.insert name.text entry :: outer) (scope'.insert name.text entry :: outer') :=
      .cons (.insert _ (.refl entry) hs) h
    have hi : Again r { r with scopes := scope.insert name.text entry :: outer } q
        { q with scopes := scope'.insert name.text entry :: outer' } [] [] := inScopes hd
    exact hi.thenStep (reportIf hi.scopes _ _ _)

theorem define (h : Marked r.scopes q.scopes) (name : Name) : Again r (r.define name) q (q.define name) [] [] := by
  unfold Resolution.define
  generalize hr : r.scopes = scopes at h
  generalize hq : q.scopes = scopes' at h
  cases h with
  | nil => exact refl (by rw [hr, hq]; exact .nil)
  | @cons scope scope' outer outer' hs h =>
    dsimp only
    have hg := hs.get? name.text
    cases hx : scope.get? name.text <;> cases hx' : scope'.get? name.text <;> rw [hx, hx'] at hg <;> cases hg
    · exact refl (by rw [hr, hq]; exact .cons hs h)
    · rename_i e e' he
      have hd : Local.Marked { e with isDefined := true } { e' with isDefined := true } := ⟨rfl, he.line, he.isUsed⟩
      exact inScopes (.cons (.insert _ hd hs) h)

theorem introduce (h : Marked r.scopes q.scopes) (name : Name) : Again r (r.introduce name) q (q.introduce name) [] [] :=
  have hd := declare h name
  hd.thenStep (define hd.scopes name)

theorem introduceAll : ∀ (names : List Name) {r q : Resolution}, Marked r.scopes q.scopes →
    Again r (names.foldl Resolution.introduce r) q (names.foldl Resolution.introduce q) [] []
  | [], _, _, h => refl h
  | name :: names, _, _, h =>
    have hi := introduce h name
    hi.thenStep (introduceAll names hi.scopes)

theorem checkReturn (h : Marked r.scopes q.scopes) (ctx : Context) (form : ReturnForm) (line : Nat) (hasValue : Bool) :
    Again r (r.checkReturn ctx form line hasValue) q (q.checkReturn ctx form line hasValue) [] [] :=
  have hr := reportIf h _ _ _
  hr.thenStep (reportIf hr.scopes _ _ _)

/-! ### Occurrences -/

section
variable (id id' : NodeId)

theorem unbound (h : Again r r₁ q q₁ [] []) : Again r r₁ q q₁ [id] [id'] :=
  have table := by
    obtain ⟨_, hl, -, ht, ht'⟩ := h.table
    obtain rfl := List.length_eq_zero_iff.mp hl
    exact ⟨[none], rfl, rfl, ht, ht'⟩
  { h with table }

theorem use (h : Marked r.scopes q.scopes) (x : String) : Again r (r.use id x) q (q.use id' x) [id] [id'] := by
  have hu := h.useIn x
  unfold Resolution.use
  cases hr : Resolution.useIn x r.scopes <;> cases hq : Resolution.useIn x q.scopes <;> rw [hr, hq] at hu <;> cases hu
  · exact (refl h).unbound id id'
  · rename_i p p' hp
    exact { inScopes hp.2 with table := ⟨[some p.1], rfl, rfl, rfl, by rw [← hp.1]; rfl⟩ }

theorem readVariable (h : Marked r.scopes q.scopes) (name : Name) :
    Again r (r.readVariable id name) q (q.readVariable id' name) [id] [id'] := by
  have hown : q.inOwnInitializer name.text = r.inOwnInitializer name.text := by
    unfold Resolution.inOwnInitializer
    generalize r.scopes = scopes at h
    generalize q.scopes = scopes' at h
    cases h with
    | nil => rfl
    | @cons scope scope' _ _ hs _ =>
      have hg := hs.get? name.text
      cases hx : scope.get? name.text <;> cases hx' : scope'.get? name.text <;> rw [hx, hx'] at hg <;> cases hg
      · simp [hx, hx']
      · rename_i he
        simp [hx, hx', he.isDefined]
  unfold Resolution.readVariable
  rw [hown]
  have hr := reportIf h (r.inOwnInitializer name.text) name.site .readInOwnInitializer
  exact hr.trans (use id id' hr.scopes name.text)

theorem readThis (h : Marked r.scopes q.scopes) (ctx : Context) (line : Nat) :
    Again r (r.readThis ctx id line) q (q.readThis ctx id' line) [id] [id'] := by
  unfold Resolution.readThis
  split
  · exact (report h _ _).unbound id id'
  · split
    · exact (report h _ _).unbound id id'
    · exact use id id' h "this"

theorem readSuper (h : Marked r.scopes q.scopes) (ctx : Context) (line : Nat) :
    Again r (r.readSuper ctx id line) q (q.readSuper ctx id' line) [id] [id'] := by
  unfold Resolution.readSuper
  split
  · exact (report h _ _).unbound id id'
  · exact (report h _ _).unbound id id'
  · split
    · exact (report h _ _).unbound id id'
    · exact use id id' h "super"

end

variable {T : Ties} {ref ref' : Option Reference}

theorem readSuperclass (h : Marked r.scopes q.scopes) (className : Name) (href : Option.Rel (Reference.Twin T) ref ref') :
    Again r (r.readSuperclass className ref) q (q.readSuperclass className ref')
      (ref.map Reference.id).toList (ref'.map Reference.id).toList := by
  cases href with
  | none => exact refl h
  | @some ref ref' href =>
    simp only [Resolution.readSuperclass, href.name]
    have hr := reportIf h (ref.name.text = className.text) ref.name.site .inheritsFromItself
    have hv := hr.trans (readVariable ref.id ref'.id hr.scopes ref.name)
    exact hv.thenStep (openImplicit hv.scopes "super")

theorem closeSuperclass (h : Marked r.scopes q.scopes) (href : Option.Rel (Reference.Twin T) ref ref') :
    Again r (r.closeSuperclass ref) q (q.closeSuperclass ref') [] [] := by
  cases href with
  | none => exact refl h
  | some => exact closeScope h

end Again

/-! ## Twins -/

section
variable {T : Ties}

mutual

theorem Expr.Twin.again {e e' : Expr} (he : e.Twin T e') {r q : Resolution} (ctx : Context) (h : Marked r.scopes q.scopes) :
    Again r (e.resolve ctx r) q (e'.resolve ctx q) e.ids e'.ids := by
  match he with
  | .literal _ => exact .refl h
  | .unary he => exact he.again ctx h
  | .binary hl hr =>
    have h := hl.again ctx h
    exact h.trans (hr.again ctx h.scopes)
  | .logical hl hr =>
    have h := hl.again ctx h
    exact h.trans (hr.again ctx h.scopes)
  | .groupLeft he => exact he.again ctx h
  | .groupRight he => exact he.again ctx h
  | .var _ => exact .readVariable _ _ h _
  | .assign he _ =>
    have h := he.again ctx h
    exact h.trans (.use _ _ h.scopes _)
  | .call hf hargs =>
    have h := hf.again ctx h
    exact h.trans (hargs.again ctx h.scopes)
  | .lambda hr => exact hr.again (ctx.enter .function) h
  | .get he => exact he.again ctx h
  | .set he hv =>
    have h := he.again ctx h
    exact h.trans (hv.again ctx h.scopes)
  | .this _ => exact .readThis _ _ h ctx _
  | .super _ => exact .readSuper _ _ h ctx _

theorem TwinExprs.again {es es' : List Expr} (hes : TwinExprs T es es') {r q : Resolution} (ctx : Context) (h : Marked r.scopes q.scopes) :
    Again r (resolveExprs es ctx r) q (resolveExprs es' ctx q) (idsExprs es) (idsExprs es') := by
  match hes with
  | .nil => exact .refl h
  | .cons he hes =>
    have h := he.again ctx h
    exact h.trans (hes.again ctx h.scopes)

theorem Stmt.Twin.again {st st' : Stmt} (hst : st.Twin T st') {r q : Resolution} (ctx : Context) (h : Marked r.scopes q.scopes) :
    Again r (st.resolve ctx r) q (st'.resolve ctx q) st.ids st'.ids := by
  match hst with
  | .expr he => exact he.again ctx h
  | .print he => exact he.again ctx h
  | .declared name => exact .introduce h name
  | @Stmt.Twin.initialized _ name _ _ he =>
    have h := Again.declare h name
    have h := h.trans (he.again ctx h.scopes)
    exact h.thenStep (.define h.scopes name)
  | .block _ hsts =>
    have h := Again.openScope h
    have h := h.trans (hsts.again ctx h.scopes)
    exact h.thenStep (.closeScope h.scopes)
  | .branch hc hst =>
    have h := hc.again ctx h
    exact h.trans (hst.again ctx h.scopes)
  | .branches hc hst hother =>
    have h := hc.again ctx h
    have h := h.trans (hst.again ctx h.scopes)
    exact h.trans (hother.again ctx h.scopes)
  | .loop hc hst =>
    have h := hc.again ctx h
    exact h.trans (hst.again { ctx with inLoop := true } h.scopes)
  | @Stmt.Twin.funDecl _ name _ _ hr =>
    have h := Again.introduce h name
    exact h.trans (hr.again (ctx.enter .function) h.scopes)
  | .returns form line => exact .checkReturn h ctx form line false
  | @Stmt.Twin.returned _ form line _ _ he =>
    have h := Again.checkReturn h ctx form line true
    exact h.trans (he.again ctx h.scopes)
  | .breaks _ => exact .reportIf h _ _ _
  | @Stmt.Twin.classDecl _ name ref ref' _ _ _ _ href hms hss =>
    unfold Stmt.resolve
    rw [ClassKind.ofSuperclass_twin href]
    have h := Again.introduce h name
    have h := h.trans (.readSuperclass h.scopes name href)
    have h := h.trans (hss.againStatics { ctx with classKind := .ofSuperclass ref, inStatic := true } h.scopes)
    have h := h.thenStep (.openImplicit h.scopes "this")
    have h := h.trans (hms.againMethods { ctx with classKind := .ofSuperclass ref, inStatic := false } h.scopes)
    have h := h.thenStep (.closeScope h.scopes)
    exact h.thenStep (.closeSuperclass h.scopes href)

theorem TwinStmts.again {sts sts' : List Stmt} (hsts : TwinStmts T sts sts') {r q : Resolution} (ctx : Context)
    (h : Marked r.scopes q.scopes) : Again r (resolveStmts sts ctx r) q (resolveStmts sts' ctx q) (idsStmts sts) (idsStmts sts') := by
  match hsts with
  | .nil => exact .refl h
  | .cons hst hsts =>
    have h := hst.again ctx h
    exact h.trans (hsts.again ctx h.scopes)

theorem Routine.Twin.again {f f' : Routine} (hf : f.Twin T f') {r q : Resolution} (ctx : Context) (h : Marked r.scopes q.scopes) :
    Again r (f.resolve ctx r) q (f'.resolve ctx q) f.ids f'.ids := by
  match hf with
  | @Routine.Twin.mk _ params _ _ _ hbody =>
    have h := Again.openScope h
    have h := h.thenStep (.introduceAll params h.scopes)
    have h := h.trans (hbody.again ctx h.scopes)
    exact h.thenStep (.closeScope h.scopes)

theorem TwinMethods.againMethods {ms ms' : List Method} (hms : TwinMethods T ms ms') {r q : Resolution} (ctx : Context)
    (h : Marked r.scopes q.scopes) : Again r (resolveMethods ms ctx r) q (resolveMethods ms' ctx q) (idsMethods ms) (idsMethods ms') := by
  match hms with
  | .nil => exact .refl h
  | @TwinMethods.cons _ name isGetter f _ _ _ hf hms =>
    have h := hf.again (ctx.enter (Method.mk name isGetter f).bodyKind) h
    exact h.trans (hms.againMethods ctx h.scopes)

theorem TwinMethods.againStatics {ms ms' : List Method} (hms : TwinMethods T ms ms') {r q : Resolution} (ctx : Context)
    (h : Marked r.scopes q.scopes) : Again r (resolveStatics ms ctx r) q (resolveStatics ms' ctx q) (idsMethods ms) (idsMethods ms') := by
  match hms with
  | .nil => exact .refl h
  | .cons hf hms =>
    have h := hf.again (ctx.enter .function) h
    exact h.trans (hms.againStatics ctx h.scopes)

end

end

/-! ## Copies -/

theorem Expr.fresh_twin (e : Expr) (next : NodeId) : e.Twin (.on fun _ _ => True) (e.fresh next).1 :=
  e.twin_of_bare _ (e.fresh_bare false next).symm fun _ _ => trivial

/-- A copy that is resolved right after its original finds the same depths, and reports nothing. -/
theorem Expr.fresh_again (e : Expr) (next : NodeId) (ctx : Context) (r : Resolution) :
    Again r (e.resolve ctx r) (e.resolve ctx r) ((e.fresh next).1.resolve ctx (e.resolve ctx r)) e.ids (e.fresh next).1.ids :=
  (e.fresh_twin next).again ctx (e.resolve_marks ctx r)

/-- A copy is the same code with identities of its own, and resolved right after its original it is resolved in the same way:
its nodes get the depths of the original's, or none as well, and there is nothing to report that has not been reported. -/
theorem copy_resolves_like_original (e : Expr) (next : NodeId) (ctx : Context) (r : Resolution) :
    let copy := (e.fresh next).1
    let after := e.resolve ctx r
    let again := copy.resolve ctx after
    copy.bare true = e.bare true ∧
    copy.ids.Nodup ∧ (∀ i ∈ copy.ids, next ≤ i ∧ i < (e.fresh next).2) ∧
    again.errors = after.errors ∧ again.warnings = after.warnings ∧
    (∃ depths : List (Option Nat), depths.length = e.ids.length ∧ depths.length = copy.ids.length ∧
      after.table = r.table.fill (e.ids.zip depths) ∧ again.table = after.table.fill (copy.ids.zip depths)) ∧
    (e.ids.Nodup → (∀ i ∈ e.ids, i < next) → (∀ i, i ∈ e.ids ∨ next ≤ i → r.table.get? i = none) →
      copy.ids.map again.table.get? = e.ids.map after.table.get? ∧ e.ids.map again.table.get? = e.ids.map after.table.get?) := by
  intro copy after again
  have hspan : Spans next (e.fresh next).2 copy.ids := e.fresh_spans next
  have h : Again r after after again e.ids copy.ids := e.fresh_again next ctx r
  obtain ⟨herrors, hwarnings⟩ := h.quiet (List.Subset.refl _) (List.Subset.refl _)
  refine ⟨e.fresh_bare true next, hspan.nodup, fun i hi => hspan.mem hi, herrors, hwarnings, h.table, fun hn hlt hnew => ?_⟩
  obtain ⟨depths, hl, hl', hafter, hagain⟩ := h.table
  have hold : ∀ i ∈ copy.ids, i ∉ e.ids := fun i hi hm => Nat.not_le_of_lt (hlt i hm) (hspan.mem hi).1
  have horiginal : e.ids.map after.table.get? = depths := by
    rw [hafter]
    exact BindingTable.map_get?_fill hl hn fun i hi => hnew i (.inl hi)
  have hcopy : copy.ids.map again.table.get? = depths := by
    rw [hagain]
    refine BindingTable.map_get?_fill hl' hspan.nodup fun i hi => ?_
    rw [hafter, BindingTable.get?_fill_of_not_mem _ _ (hold i hi)]
    exact hnew i (.inr (hspan.mem hi).1)
  refine ⟨hcopy.trans horiginal.symm, List.map_congr_left fun i hi => ?_⟩
  rw [hagain, BindingTable.get?_fill_of_not_mem _ _ fun hm => hold i hm hi]

/-- The target calls a local variable with a function that breaks a rule and leaves its parameter unused. -/
theorem copy_of_faulty_target :
    let e : Expr := .call (.var 0 ⟨"f", 1⟩) 1 [.lambda 1 ⟨[⟨"x", 1⟩], [.expr (.this 1 1)]⟩]
    let r : Resolution := { scopes := [Dict.empty.insert "f" { isDefined := true, isUsed := false, line := 1 }] }
    let after := e.resolve {} r
    let again := (e.fresh 2).1.resolve {} after
    (e.ids.Nodup ∧ (∀ i ∈ e.ids, i < 2) ∧ ∀ i, i ∈ e.ids ∨ 2 ≤ i → r.table.get? i = none) ∧
    (after.errors = [.scoping (.lexeme "this" 1) .thisOutsideClass] ∧ after.warnings = [⟨1, "x"⟩] ∧
      e.ids.map after.table.get? = [some 0, none]) ∧
    again.errors = after.errors ∧ again.warnings = after.warnings ∧
    [2, 3].map again.table.get? = e.ids.map after.table.get? := by
  intro e r after again
  have hnew : ∀ i, i ∈ e.ids ∨ 2 ≤ i → r.table.get? i = none := fun _ _ => rfl
  have hlt : ∀ i ∈ e.ids, i < 2 := by decide
  obtain ⟨-, -, -, herrors, hwarnings, -, h⟩ := copy_resolves_like_original e 2 {} r
  exact ⟨⟨by decide, hlt, hnew⟩, by decide +kernel, herrors, hwarnings, (h (by decide) hlt hnew).1⟩

end Lox
