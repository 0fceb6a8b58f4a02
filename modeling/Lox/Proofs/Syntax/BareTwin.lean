import Lox.Proofs.Syntax.Bare
import Lox.Proofs.Syntax.Twin

/-!
# Trees with the same bare code

Trees whose code is the same without groups and identities have their nodes in the same places. If the identities in these
places are tied to each other, the trees are twins.
-/

namespace Lox

/-! ## Bare code -/

section
variable (groups : Bool)

mutual

theorem Expr.bare_bare : ∀ e : Expr, (e.bare true).bare groups = e.bare groups
  | .literal _ => rfl
  | .unary _ _ e => congrArg (Expr.unary _ _) e.bare_bare
  | .binary _ _ l r => congrArg₂ (Expr.binary _ _) l.bare_bare r.bare_bare
  | .logical _ _ l r => congrArg₂ (Expr.logical _ _) l.bare_bare r.bare_bare
  | .group e => by
    have h : (Expr.group e).bare true = .group (e.bare true) := rfl
    rw [h, Expr.bare, Expr.bare, e.bare_bare]
  | .var _ _ => rfl
  | .assign _ _ e => congrArg (Expr.assign _ _) e.bare_bare
  | .call e _ es => congrArg₂ (Expr.call · _ ·) e.bare_bare (bareExprs_bare es)
  | .lambda _ r => congrArg (Expr.lambda _) r.bare_bare
  | .get e _ => congrArg (Expr.get · _) e.bare_bare
  | .set e _ v => congrArg₂ (Expr.set · _ ·) e.bare_bare v.bare_bare
  | .this _ _ => rfl
  | .super _ _ _ => rfl

theorem bareExprs_bare : ∀ es : List Expr, bareExprs groups (bareExprs true es) = bareExprs groups es
  | [] => rfl
  | e :: es => congrArg₂ List.cons e.bare_bare (bareExprs_bare es)

theorem Stmt.bare_bare : ∀ st : Stmt, (st.bare true).bare groups = st.bare groups
  | .expr e => congrArg Stmt.expr e.bare_bare
  | .print e => congrArg Stmt.print e.bare_bare
  | .varDecl _ none => rfl
  | .varDecl _ (some e) => congrArg (fun e => Stmt.varDecl _ (some e)) e.bare_bare
  | .block sts => congrArg Stmt.block (bareStmts_bare sts)
  | .branch c st none => congrArg₂ (Stmt.branch · · none) c.bare_bare st.bare_bare
  | .branch c st (some st') => by
    rw [Stmt.bare, Stmt.bare, Stmt.bare, c.bare_bare, st.bare_bare, st'.bare_bare]
  | .loop c st => congrArg₂ Stmt.loop c.bare_bare st.bare_bare
  | .funDecl _ r => congrArg (Stmt.funDecl _) r.bare_bare
  | .returns _ _ none => rfl
  | .returns _ _ (some e) => congrArg (fun e => Stmt.returns _ _ (some e)) e.bare_bare
  | .breaks _ => rfl
  | .classDecl _ none ms ss => congrArg₂ (Stmt.classDecl _ none · ·) (bareMethods_bare ms) (bareMethods_bare ss)
  | .classDecl _ (some _) ms ss => congrArg₂ (Stmt.classDecl _ _ · ·) (bareMethods_bare ms) (bareMethods_bare ss)

theorem bareStmts_bare : ∀ sts : List Stmt, bareStmts groups (bareStmts true sts) = bareStmts groups sts
  | [] => rfl
  | st :: sts => congrArg₂ List.cons st.bare_bare (bareStmts_bare sts)

theorem Routine.bare_bare : ∀ r : Routine, (r.bare true).bare groups = r.bare groups
  | ⟨_, body⟩ => congrArg (Routine.mk _) (bareStmts_bare body)

theorem Method.bare_bare : ∀ m : Method, (m.bare true).bare groups = m.bare groups
  | ⟨_, _, r⟩ => congrArg (Method.mk _ _) r.bare_bare

theorem bareMethods_bare : ∀ ms : List Method, bareMethods groups (bareMethods true ms) = bareMethods groups ms
  | [] => rfl
  | m :: ms => congrArg₂ List.cons m.bare_bare (bareMethods_bare ms)

end

/-! Erasing keeps the places of identities. -/

mutual

theorem Expr.length_ids_bare : ∀ e : Expr, (e.bare groups).ids.length = e.ids.length
  | .literal _ => rfl
  | .unary _ _ e => e.length_ids_bare
  | .binary _ _ l r => by simp only [Expr.bare, Expr.ids, List.length_append, l.length_ids_bare, r.length_ids_bare]
  | .logical _ _ l r => by simp only [Expr.bare, Expr.ids, List.length_append, l.length_ids_bare, r.length_ids_bare]
  | .group e => by
    rw [Expr.bare, Expr.ids, ← e.length_ids_bare]
    split <;> rfl
  | .var _ _ => rfl
  | .assign _ _ e => by simp only [Expr.bare, Expr.ids, List.length_append, e.length_ids_bare, List.length_singleton]
  | .call e _ es => by simp only [Expr.bare, Expr.ids, List.length_append, e.length_ids_bare, length_idsExprs_bare es]
  | .lambda _ r => r.length_ids_bare
  | .get e _ => e.length_ids_bare
  | .set e _ v => by simp only [Expr.bare, Expr.ids, List.length_append, e.length_ids_bare, v.length_ids_bare]
  | .this _ _ => rfl
  | .super _ _ _ => rfl

theorem length_idsExprs_bare : ∀ es : List Expr, (idsExprs (bareExprs groups es)).length = (idsExprs es).length
  | [] => rfl
  | e :: es => by simp only [bareExprs, idsExprs, List.length_append, e.length_ids_bare, length_idsExprs_bare es]

theorem Stmt.length_ids_bare : ∀ st : Stmt, (st.bare groups).ids.length = st.ids.length
  | .expr e => e.length_ids_bare
  | .print e => e.length_ids_bare
  | .varDecl _ none => rfl
  | .varDecl _ (some e) => e.length_ids_bare
  | .block sts => length_idsStmts_bare sts
  | .branch c st none => by simp only [Stmt.bare, Stmt.ids, List.length_append, c.length_ids_bare, st.length_ids_bare]
  | .branch c st (some st') => by
    simp only [Stmt.bare, Stmt.ids, List.length_append, c.length_ids_bare, st.length_ids_bare, st'.length_ids_bare]
  | .loop c st => by simp only [Stmt.bare, Stmt.ids, List.length_append, c.length_ids_bare, st.length_ids_bare]
  | .funDecl _ r => r.length_ids_bare
  | .returns _ _ none => rfl
  | .returns _ _ (some e) => e.length_ids_bare
  | .breaks _ => rfl
  | .classDecl _ superclass ms ss => by
    have href : ((superclass.map Reference.bare).map Reference.id).toList.length = (superclass.map Reference.id).toList.length := by
      cases superclass <;> rfl
    simp only [Stmt.bare, Stmt.ids, List.length_append, href, length_idsMethods_bare ms, length_idsMethods_bare ss]

theorem length_idsStmts_bare : ∀ sts : List Stmt, (idsStmts (bareStmts groups sts)).length = (idsStmts sts).length
  | [] => rfl
  | st :: sts => by simp only [bareStmts, idsStmts, List.length_append, st.length_ids_bare, length_idsStmts_bare sts]

theorem Routine.length_ids_bare : ∀ r : Routine, (r.bare groups).ids.length = r.ids.length
  | ⟨_, body⟩ => length_idsStmts_bare body

theorem Method.length_ids_bare : ∀ m : Method, (m.bare groups).ids.length = m.ids.length
  | ⟨_, _, r⟩ => r.length_ids_bare

theorem length_idsMethods_bare : ∀ ms : List Method, (idsMethods (bareMethods groups ms)).length = (idsMethods ms).length
  | [] => rfl
  | m :: ms => by simp only [bareMethods, idsMethods, List.length_append, m.length_ids_bare, length_idsMethods_bare ms]

end

end

/-! ## Twins -/

/-- Nothing is asked of scopes. -/
def Ties.on (ids : NodeId → NodeId → Prop) : Ties := ⟨ids, fun _ => True⟩

section
variable {R : NodeId → NodeId → Prop}

/-- Identities in the same places are related. -/
def Pairs (R : NodeId → NodeId → Prop) (is js : List NodeId) : Prop := ∀ p ∈ is.zip js, R p.1 p.2

namespace Pairs

variable {is is' js js' : List NodeId}

theorem single {i j : NodeId} (h : Pairs R [i] [j]) : R i j := h (i, j) (.head _)

theorem split (h : Pairs R (is ++ is') (js ++ js')) (hlen : is.length = js.length) : Pairs R is js ∧ Pairs R is' js' := by
  unfold Pairs at h
  rw [List.zip_append hlen] at h
  exact ⟨fun p hp => h p (List.mem_append_left _ hp), fun p hp => h p (List.mem_append_right _ hp)⟩

end Pairs

theorem Expr.length_ids_of_bare {e e' : Expr} (h : e.bare false = e'.bare false) : e.ids.length = e'.ids.length := by
  rw [← e.length_ids_bare false, h, e'.length_ids_bare]

theorem Stmt.length_ids_of_bare {st st' : Stmt} (h : st.bare false = st'.bare false) : st.ids.length = st'.ids.length := by
  rw [← st.length_ids_bare false, h, st'.length_ids_bare]

theorem length_idsMethods_of_bare {ms ms' : List Method} (h : bareMethods false ms = bareMethods false ms') :
    (idsMethods ms).length = (idsMethods ms').length := by
  rw [← length_idsMethods_bare false, h, length_idsMethods_bare]

theorem Reference.length_ids_of_bare {ref ref' : Option Reference} (h : ref.map Reference.bare = ref'.map Reference.bare) :
    (ref.map Reference.id).toList.length = (ref'.map Reference.id).toList.length := by
  cases ref <;> cases ref' <;> first | rfl | cases h

theorem Reference.twin_of_bare {ref ref' : Option Reference} (h : ref.map Reference.bare = ref'.map Reference.bare)
    (hi : Pairs R (ref.map Reference.id).toList (ref'.map Reference.id).toList) : Option.Rel (Reference.Twin (.on R)) ref ref' := by
  cases ref with
  | none =>
    cases ref' with
    | none => exact .none
    | some ref' => cases h
  | some ref =>
    cases ref' with
    | none => cases h
    | some ref' => exact .some ⟨hi.single, (congrArg Reference.name (Option.some.inj h)).symm⟩

mutual

theorem Expr.twin_of_bare : ∀ e e' : Expr, e.bare false = e'.bare false → Pairs R e.ids e'.ids → e.Twin (.on R) e'
  | .group e, e', hb, hi => .groupLeft (e.twin_of_bare e' hb hi)
  | e, .group e', hb, hi => .groupRight (e.twin_of_bare e' hb hi)
  | .literal v, .literal v', hb, _ => by
    obtain rfl := Expr.literal.inj hb
    exact .literal v
  | .unary op line e, .unary op' line' e', hb, hi => by
    obtain ⟨rfl, rfl, he⟩ := Expr.unary.inj hb
    exact .unary (e.twin_of_bare e' he hi)
  | .binary op line l r, .binary op' line' l' r', hb, hi => by
    obtain ⟨rfl, rfl, hl, hr⟩ := Expr.binary.inj hb
    obtain ⟨hil, hir⟩ := hi.split (Expr.length_ids_of_bare hl)
    exact .binary (l.twin_of_bare l' hl hil) (r.twin_of_bare r' hr hir)
  | .logical op line l r, .logical op' line' l' r', hb, hi => by
    obtain ⟨rfl, rfl, hl, hr⟩ := Expr.logical.inj hb
    obtain ⟨hil, hir⟩ := hi.split (Expr.length_ids_of_bare hl)
    exact .logical (l.twin_of_bare l' hl hil) (r.twin_of_bare r' hr hir)
  | .var id name, .var id' name', hb, hi => by
    obtain ⟨-, rfl⟩ := Expr.var.inj hb
    exact .var hi.single
  | .assign id name e, .assign id' name' e', hb, hi => by
    obtain ⟨-, rfl, he⟩ := Expr.assign.inj hb
    obtain ⟨hie, hid⟩ := hi.split (Expr.length_ids_of_bare he)
    exact .assign (e.twin_of_bare e' he hie) hid.single
  | .call f line args, .call f' line' args', hb, hi => by
    obtain ⟨hf, rfl, hargs⟩ := Expr.call.inj hb
    obtain ⟨hif, hia⟩ := hi.split (Expr.length_ids_of_bare hf)
    exact .call (f.twin_of_bare f' hf hif) (twinExprs_of_bare args args' hargs hia)
  | .lambda line r, .lambda line' r', hb, hi => by
    obtain ⟨rfl, hr⟩ := Expr.lambda.inj hb
    exact .lambda (r.twin_of_bare r' hr hi)
  | .get e name, .get e' name', hb, hi => by
    obtain ⟨he, rfl⟩ := Expr.get.inj hb
    exact .get (e.twin_of_bare e' he hi)
  | .set e name v, .set e' name' v', hb, hi => by
    obtain ⟨he, rfl, hv⟩ := Expr.set.inj hb
    obtain ⟨hie, hiv⟩ := hi.split (Expr.length_ids_of_bare he)
    exact .set (e.twin_of_bare e' he hie) (v.twin_of_bare v' hv hiv)
  | .this id line, .this id' line', hb, hi => by
    obtain ⟨-, rfl⟩ := Expr.this.inj hb
    exact .this hi.single
  | .super id line method, .super id' line' method', hb, hi => by
    obtain ⟨-, rfl, rfl⟩ := Expr.super.inj hb
    exact .super hi.single
termination_by e e' => sizeOf e + sizeOf e'

theorem twinExprs_of_bare : ∀ es es' : List Expr, bareExprs false es = bareExprs false es' →
    Pairs R (idsExprs es) (idsExprs es') → TwinExprs (.on R) es es'
  | [], [], _, _ => .nil
  | e :: es, e' :: es', hb, hi => by
    obtain ⟨he, hes⟩ := List.cons.inj hb
    obtain ⟨hie, hies⟩ := hi.split (Expr.length_ids_of_bare he)
    exact .cons (e.twin_of_bare e' he hie) (twinExprs_of_bare es es' hes hies)
termination_by es es' => sizeOf es + sizeOf es'

theorem Stmt.twin_of_bare : ∀ st st' : Stmt, st.bare false = st'.bare false → Pairs R st.ids st'.ids → st.Twin (.on R) st'
  | .expr e, .expr e', hb, hi => .expr (e.twin_of_bare e' (Stmt.expr.inj hb) hi)
  | .print e, .print e', hb, hi => .print (e.twin_of_bare e' (Stmt.print.inj hb) hi)
  | .varDecl name none, .varDecl name' none, hb, hi => by
    obtain ⟨rfl, -⟩ := Stmt.varDecl.inj hb
    exact .declared name
  | .varDecl name (some e), .varDecl name' (some e'), hb, hi => by
    obtain ⟨rfl, he⟩ := Stmt.varDecl.inj hb
    exact .initialized (e.twin_of_bare e' (Option.some.inj he) hi)
  | .block sts, .block sts', hb, hi => .block trivial (twinStmts_of_bare sts sts' (Stmt.block.inj hb) hi)
  | .branch c st none, .branch c' st' none, hb, hi => by
    obtain ⟨hc, hst, -⟩ := Stmt.branch.inj hb
    obtain ⟨hic, hist⟩ := hi.split (Expr.length_ids_of_bare hc)
    exact .branch (c.twin_of_bare c' hc hic) (st.twin_of_bare st' hst hist)
  | .branch c st (some other), .branch c' st' (some other'), hb, hi => by
    obtain ⟨hc, hst, hother⟩ := Stmt.branch.inj hb
    have hlen : (c.ids ++ st.ids).length = (c'.ids ++ st'.ids).length := by
      rw [List.length_append, List.length_append, Expr.length_ids_of_bare hc, Stmt.length_ids_of_bare hst]
    obtain ⟨hi, hio⟩ := hi.split hlen
    obtain ⟨hic, hist⟩ := hi.split (Expr.length_ids_of_bare hc)
    exact .branches (c.twin_of_bare c' hc hic) (st.twin_of_bare st' hst hist) (other.twin_of_bare other' (Option.some.inj hother) hio)
  | .branch _ _ none, .branch _ _ (some _), hb, _ => nomatch (Stmt.branch.inj hb).2.2
  | .branch _ _ (some _), .branch _ _ none, hb, _ => nomatch (Stmt.branch.inj hb).2.2
  | .loop c st, .loop c' st', hb, hi => by
    obtain ⟨hc, hst⟩ := Stmt.loop.inj hb
    obtain ⟨hic, hist⟩ := hi.split (Expr.length_ids_of_bare hc)
    exact .loop (c.twin_of_bare c' hc hic) (st.twin_of_bare st' hst hist)
  | .funDecl name r, .funDecl name' r', hb, hi => by
    obtain ⟨rfl, hr⟩ := Stmt.funDecl.inj hb
    exact .funDecl (r.twin_of_bare r' hr hi)
  | .returns form line none, .returns form' line' none, hb, hi => by
    obtain ⟨rfl, rfl, -⟩ := Stmt.returns.inj hb
    exact .returns form line
  | .returns form line (some e), .returns form' line' (some e'), hb, hi => by
    obtain ⟨rfl, rfl, he⟩ := Stmt.returns.inj hb
    exact .returned (e.twin_of_bare e' (Option.some.inj he) hi)
  | .breaks line, .breaks line', hb, hi => by
    obtain rfl := Stmt.breaks.inj hb
    exact .breaks line
  | .classDecl name ref ms ss, .classDecl name' ref' ms' ss', hb, hi => by
    obtain ⟨rfl, href, hms, hss⟩ := Stmt.classDecl.inj hb
    have hlen := Reference.length_ids_of_bare href
    obtain ⟨hi, hims⟩ := hi.split (by rw [List.length_append, List.length_append, hlen, length_idsMethods_of_bare hss])
    obtain ⟨hir, hiss⟩ := hi.split hlen
    exact .classDecl (Reference.twin_of_bare href hir) (twinMethods_of_bare ms ms' hms hims) (twinMethods_of_bare ss ss' hss hiss)
termination_by st st' => sizeOf st + sizeOf st'

theorem twinStmts_of_bare : ∀ sts sts' : List Stmt, bareStmts false sts = bareStmts false sts' →
    Pairs R (idsStmts sts) (idsStmts sts') → TwinStmts (.on R) sts sts'
  | [], [], _, _ => .nil
  | st :: sts, st' :: sts', hb, hi => by
    obtain ⟨hst, hsts⟩ := List.cons.inj hb
    obtain ⟨hist, hists⟩ := hi.split (Stmt.length_ids_of_bare hst)
    exact .cons (st.twin_of_bare st' hst hist) (twinStmts_of_bare sts sts' hsts hists)
termination_by sts sts' => sizeOf sts + sizeOf sts'

theorem Routine.twin_of_bare : ∀ r r' : Routine, r.bare false = r'.bare false → Pairs R r.ids r'.ids → r.Twin (.on R) r'
  | ⟨params, body⟩, ⟨params', body'⟩, hb, hi => by
    obtain ⟨rfl, hbody⟩ := Routine.mk.inj hb
    exact .mk trivial (twinStmts_of_bare body body' hbody hi)
termination_by r r' => sizeOf r + sizeOf r'

theorem twinMethods_of_bare : ∀ ms ms' : List Method, bareMethods false ms = bareMethods false ms' →
    Pairs R (idsMethods ms) (idsMethods ms') → TwinMethods (.on R) ms ms'
  | [], [], _, _ => .nil
  | ⟨name, isGetter, r⟩ :: ms, ⟨name', isGetter', r'⟩ :: ms', hb, hi => by
    obtain ⟨hm, hms⟩ := List.cons.inj hb
    obtain ⟨rfl, rfl, hr⟩ := Method.mk.inj hm
    have hlen : r.ids.length = r'.ids.length := by
      rw [← r.length_ids_bare false, hr, r'.length_ids_bare]
    obtain ⟨hir, hims⟩ := Pairs.split hi hlen
    exact .cons (r.twin_of_bare r' hr hir) (twinMethods_of_bare ms ms' hms hims)
termination_by ms ms' => sizeOf ms + sizeOf ms'

end

end

end Lox
