import Lox.Proofs.Evaluation.Flow

/-!
# The moments of an evaluation are ready

What a ready moment turns to is ready as well, however deep it lies. So every node that is evaluated
finds the scopes that it was resolved in, each in its place.
-/

namespace Lox

namespace World

variable {w : World} {n : Nat} {m m' : Machine} {Γ : Scopes} {x y : Moment}

theorem after (hcov : w.Covers x) {a : Activity} (hc : x.Calls ⟨n, a, m⟩) (hr : a.Ready w Γ m) {r : a.Result}
    (h : a.run n m = .done r m') : w.Continues m m' ∧ a.After w Γ r m' := by
  have hends := w.sound n a m Γ (hcov.calls hc) hr
  rw [Moment.outcome, h] at hends
  exact hends

theorem ready_of_expr {e : Expr} (hcov : w.Covers ⟨n, .expr e, m⟩) (hc : Moment.Calls ⟨n, .expr e, m⟩ y)
    (hr : (Activity.expr e).Ready w Γ m) : ∃ Γ', y.activity.Ready w Γ' y.machine := by
  cases hc with
  | unary =>
    obtain ⟨hat, hsee⟩ := hr
    exact ⟨Γ, hat, hsee.operand⟩
  | binaryLeft =>
    obtain ⟨hat, hsee⟩ := hr
    exact ⟨Γ, hat, hsee.binaryLeft⟩
  | binaryRight hv =>
    obtain ⟨hat, hsee⟩ := hr
    obtain ⟨hc, -⟩ := after (a := .expr _) hcov .binaryLeft ⟨hat, hsee.binaryLeft⟩ hv
    exact ⟨Γ, hat.next hc, hsee.binaryRight⟩
  | logicalLeft =>
    obtain ⟨hat, hsee⟩ := hr
    exact ⟨Γ, hat, hsee.logicalLeft⟩
  | logicalRight hv _ =>
    obtain ⟨hat, hsee⟩ := hr
    obtain ⟨hc, -⟩ := after (a := .expr _) hcov .logicalLeft ⟨hat, hsee.logicalLeft⟩ hv
    exact ⟨Γ, hat.next hc, hsee.logicalRight⟩
  | group => exact ⟨Γ, hr⟩
  | assigned =>
    obtain ⟨hat, hsee⟩ := hr
    exact ⟨Γ, hat, hsee.assigned⟩
  | callee =>
    obtain ⟨hat, hsee⟩ := hr
    exact ⟨Γ, hat, hsee.callee⟩
  | arguments hv =>
    obtain ⟨hat, hsee⟩ := hr
    obtain ⟨hc, -⟩ := after (a := .expr _) hcov .callee ⟨hat, hsee.callee⟩ hv
    exact ⟨Γ, hat.next hc, hsee.arguments⟩
  | call hv hvs =>
    obtain ⟨hat, hsee⟩ := hr
    obtain ⟨hc, hf⟩ := after (a := .expr _) hcov .callee ⟨hat, hsee.callee⟩ hv
    obtain ⟨hc', hargs⟩ := after (a := .exprs _) hcov (.arguments hv) ⟨hat.next hc, hsee.arguments⟩ hvs
    exact ⟨Γ, hc'.ready, hf.grow hc'.grows, hargs⟩
  | getObject => exact ⟨Γ, hr⟩
  | get hv =>
    obtain ⟨hc, hobject⟩ := after (a := .expr _) hcov .getObject hr hv
    exact ⟨Γ, hc.ready, hobject⟩
  | setObject =>
    obtain ⟨hat, hsee⟩ := hr
    exact ⟨Γ, hat, hsee.setObject⟩
  | set hv =>
    obtain ⟨hat, hsee⟩ := hr
    obtain ⟨hc, hobject⟩ := after (a := .expr _) hcov .setObject ⟨hat, hsee.setObject⟩ hv
    exact ⟨Γ, hat.next hc, hsee.setValue, hobject⟩
  | super =>
    obtain ⟨hat, hsee⟩ := hr
    exact ⟨Γ, hat, hsee.known _ (List.mem_singleton.mpr rfl)⟩

theorem ready_of_stmt {st : Stmt} (hcov : w.Covers ⟨n, .stmt st, m⟩) (hc : Moment.Calls ⟨n, .stmt st, m⟩ y)
    (hr : (Activity.stmt st).Ready w Γ m) : ∃ Γ', y.activity.Ready w Γ' y.machine := by
  cases hc with
  | statement =>
    obtain ⟨hat, -, hsee⟩ := hr
    exact ⟨Γ, hat, hsee⟩
  | print =>
    obtain ⟨hat, -, hsee⟩ := hr
    exact ⟨Γ, hat, hsee⟩
  | varDecl =>
    obtain ⟨hat, hset, hsee⟩ := hr
    have hn : Name.IsPlain _ := hsee.proper.1
    exact ⟨_, ⟨hat.ready, hat.models.enterInitializer hset hn⟩, hsee.initializer⟩
  | block hframe =>
    obtain ⟨hat, -, hsee⟩ := hr
    exact ⟨_, hat.block hsee hframe (hcov.creates (.block hframe))⟩
  | condition =>
    obtain ⟨hat, -, hsee⟩ := hr
    exact ⟨Γ, hat, hsee.condition⟩
  | thenBranch hv _ =>
    obtain ⟨hat, hset, hsee⟩ := hr
    obtain ⟨hc, -⟩ := after (a := .expr _) hcov .condition ⟨hat, hsee.condition⟩ hv
    exact ⟨Γ, hat.next hc, hset, hsee.thenBranch⟩
  | elseBranch hv _ =>
    obtain ⟨hat, hset, hsee⟩ := hr
    obtain ⟨hc, -⟩ := after (a := .expr _) hcov .condition ⟨hat, hsee.condition⟩ hv
    exact ⟨Γ, hat.next hc, hset, hsee.elseBranch⟩
  | loop =>
    obtain ⟨hat, hset, hsee⟩ := hr
    exact ⟨Γ, hat, hset, hsee.loopCondition, hsee.loopBody, hsee.proper.2.2⟩
  | returns =>
    obtain ⟨hat, -, hsee⟩ := hr
    exact ⟨Γ, hat, hsee⟩
  | superclass =>
    obtain ⟨hat, -, hsee⟩ := hr
    exact ⟨Γ, hat, hsee.superclass⟩

theorem ready_calls (hcov : w.Covers x) (hc : x.Calls y) (hr : x.activity.Ready w Γ x.machine) :
    ∃ Γ', y.activity.Ready w Γ' y.machine := by
  obtain ⟨n, a, m⟩ := x
  cases a with
  | expr e => exact ready_of_expr hcov hc hr
  | stmt st => exact ready_of_stmt hcov hc hr
  | exprs es =>
    cases hc with
    | head =>
      obtain ⟨hat, hsee⟩ := hr
      exact ⟨Γ, hat, hsee.head⟩
    | tail hv =>
      obtain ⟨hat, hsee⟩ := hr
      obtain ⟨hc, -⟩ := after (a := .expr _) hcov .head ⟨hat, hsee.head⟩ hv
      exact ⟨Γ, hat.next hc, hsee.tail⟩
  | setProperty object name value =>
    cases hc with
    | fieldValue =>
      obtain ⟨hat, hsee, -⟩ := hr
      exact ⟨Γ, hat, hsee⟩
  | property object name =>
    cases hc with
    | method _ hf =>
      obtain ⟨hm, hi⟩ := hr
      exact ⟨Γ, hm, ClassReady.method hi hf, hi⟩
    | staticGetter hf hg =>
      obtain ⟨hm, hcls⟩ := hr
      exact ⟨Γ, .getter hm (ClassReady.static hcls hf) hg⟩
  | superProperty id line method =>
    cases hc with
    | superMethod hcls hi hf =>
      obtain ⟨hat, ho⟩ := hr
      obtain ⟨-, -, hcls⟩ := (Ends.superClass (F := fun _ => True) hat ho).of_done hcls
      obtain ⟨-, -, hi⟩ := (Ends.superReceiver (F := fun _ => True) hat ho).of_done hi
      exact ⟨Γ, hat.ready, hcls.method hf, hi⟩
  | methodOf method receiver line =>
    cases hc with
    | getter hbound hg =>
      obtain ⟨hm, ⟨_, _, hb⟩, hi⟩ := hr
      obtain ⟨hc, hcall, -⟩ := (Ends.bindThis (F := fun _ => True) hm hb hi
        fun _ _ h => hcov.creates (.bound h hb.declares)).of_done hbound
      exact ⟨Γ, .getter hc.ready hcall hg⟩
  | call callee arguments line =>
    cases hc with
    | apply hf hl =>
      obtain ⟨hm, hv, hargs⟩ := hr
      exact ⟨Γ, hm, hv.callee hf, hl, hargs⟩
  | apply callee arguments line =>
    cases hc with
    | closure => exact ⟨Γ, hr.1, hr.2.1, hr.2.2.1, hr.2.2.2⟩
    | initializer hinst hf hbound =>
      obtain ⟨hm, hcls, hl, hargs⟩ := hr
      obtain ⟨hc, hi⟩ := (Ends.newInstance (F := fun _ => True) hm _).of_done hinst
      have hcls : w.ClassReady _ _ := ClassReady.grow hcls hc.grows
      obtain ⟨_, _, hb⟩ := hcls.method hf
      obtain ⟨hc', hcall, hroutine⟩ := (Ends.bindThis (F := fun _ => True) hc.ready hb (by rw [hi]; exact hcls)
        fun _ _ h => hcov.creates (.initializer hinst hf h hb.declares)).of_done hbound
      exact ⟨Γ, .initializer hc'.ready hf hcall hroutine hl fun v hv => (hargs v hv).grow (hc.grows.trans hc'.grows)⟩
  | enter c arguments line =>
    cases hc with
    | enter hd =>
      have h : w.CallReady _ _ _ := hr
      exact ⟨Γ, h.deeper _⟩
  | runBody c arguments =>
    cases hc with
    | body hframe =>
      have h : w.CallReady _ _ _ := hr
      exact h.body hframe (hcov.creates (.body hframe))
  | superclass cls ref => cases hc
  | stmts sts =>
    cases hc with
    | first =>
      obtain ⟨hat, hset, hsee⟩ := hr
      exact ⟨Γ, hat, hset, hsee.first⟩
    | rest hf =>
      obtain ⟨hat, hset, hsee⟩ := hr
      obtain ⟨hc, hmodels⟩ := after (a := .stmt _) hcov .first ⟨hat, hset, hsee.first⟩ hf
      exact ⟨_, ⟨hc.ready, hmodels⟩, hset.declare, hsee.rest⟩
  | loop condition body =>
    cases hc with
    | loopCondition =>
      obtain ⟨hat, -, hcond, -⟩ := hr
      exact ⟨Γ, hat, hcond⟩
    | loopBody hv _ =>
      obtain ⟨hat, hset, hcond, hbody, -⟩ := hr
      obtain ⟨hc, -⟩ := after (a := .expr _) hcov .loopCondition ⟨hat, hcond⟩ hv
      exact ⟨Γ, hat.next hc, hset, hbody⟩
    | again hv ht hf =>
      obtain ⟨hat, hset, hcond, hbody, hd⟩ := hr
      obtain ⟨hc, -⟩ := after (a := .expr _) hcov .loopCondition ⟨hat, hcond⟩ hv
      have hat := hat.next hc
      obtain ⟨hc, -⟩ := after (a := .stmt _) hcov (.loopBody hv ht) ⟨hat, hset, hbody⟩ hf
      exact ⟨Γ, hat.next hc, hset, hcond, hbody, hd⟩

theorem ready_reaches (hcov : w.Covers x) (h : x.Reaches y) (hr : x.activity.Ready w Γ x.machine) :
    ∃ Γ', y.activity.Ready w Γ' y.machine := by
  induction h generalizing Γ with
  | refl => exact ⟨Γ, hr⟩
  | step hc _ ih =>
    obtain ⟨Γ', hr⟩ := ready_calls hcov hc hr
    exact ih (hcov.calls hc) hr

/-! ## Accesses -/

/-- `d` links out is the environment that was created for the scope `d` out of the occurrence. It
binds the name, unless the occurrence lies in the initializer of that variable. -/
structure Finds (w : World) (m : Machine) (o : Occurrence) (d : Nat) (sc : LocalScope) (f : FrameId) (outer : Env) :
    Prop where
  scope : o.scopes[d]? = some sc
  links : m.env.drop d = f :: outer
  created : w.created (f :: outer) sc.opener
  bound : sc.pending ≠ some o.name → (m.store.var? f o.name).isSome

/-- The node is an occurrence of the programs, and finds its variable where the table says. -/
def Agrees (w : World) (m : Machine) (id : NodeId) (name : String) : Prop :=
  ∃ scopes, w.known ⟨id, name, scopes⟩ ∧ ∀ d, m.bindings.get? id = some d →
    Occurrence.BoundAt ⟨id, name, scopes⟩ d ∧ ∃ sc f outer, w.Finds m ⟨id, name, scopes⟩ d sc f outer

theorem MachineReady.boundAt (h : w.MachineReady m) {o : Occurrence} (ho : w.known o) {d : Nat}
    (hd : m.bindings.get? o.id = some d) : o.BoundAt d := by
  rw [← Occurrence.depth?_eq_some_iff, ← h.table o ho]
  exact hd

theorem At.agrees (h : w.At m Γ) {id : NodeId} {x : String} (ho : w.known ⟨id, x, Γ⟩) : w.Agrees m id x := by
  refine ⟨Γ, ho, fun d hd => ⟨h.ready.boundAt ho hd, ?_⟩⟩
  obtain ⟨f, outer, sc, hdrop, -, hs, hx, ha⟩ := h.frame ho hd
  exact ⟨sc, f, outer, hs, hdrop, ha.created, ha.bound x hx⟩

/-- The name of a class is not yet bound where its superclass is evaluated, but that is another name. -/
theorem At.agrees_superclass (h : w.At m Γ) {id : NodeId} {x cls : String} (ho : w.known ⟨id, x, Γ.declare [cls]⟩)
    (hne : x ≠ cls) : w.Agrees m id x := by
  refine ⟨_, ho, fun d hd => ⟨h.ready.boundAt ho hd, ?_⟩⟩
  obtain ⟨⟨sc, hs, hx⟩, -⟩ := h.ready.boundAt ho hd
  cases Γ with
  | nil => cases hs
  | cons inner Γ =>
    cases d with
    | zero =>
      cases hs
      obtain ⟨f, outer, hdrop, -, ha⟩ := h.models.frame (d := 0) rfl
      exact ⟨_, f, outer, rfl, hdrop, ha.created, ha.bound x (by simpa [hne] using hx)⟩
    | succ d =>
      obtain ⟨f, outer, hdrop, -, ha⟩ := h.models.frame (d := d + 1) hs
      exact ⟨sc, f, outer, hs, hdrop, ha.created, ha.bound x hx⟩

/-- The variable of the occurrence is accessed in these scopes. A superclass was resolved with the name of its class in
scope, but where it is evaluated that name is not bound yet. -/
def Accessed (w : World) (m : Machine) (Γ : Scopes) (o : Occurrence) : Prop :=
  w.At m Γ ∧ w.known o ∧ (o.scopes = Γ ∨ ∃ cls, o.name ≠ cls ∧ o.scopes = Γ.declare [cls])

theorem ready_accessed (hcov : w.Covers x) (hr : x.activity.Ready w Γ x.machine) {id : NodeId} {name : Name}
    (ha : x.Accesses id name m) : ∃ Γ' scopes, w.Accessed m Γ' ⟨id, name.text, scopes⟩ := by
  cases ha with
  | var =>
    obtain ⟨hat, hsee⟩ := hr
    exact ⟨Γ, Γ, hat, hsee.known _ (List.mem_singleton.mpr rfl), .inl rfl⟩
  | assign hv =>
    obtain ⟨hat, hsee⟩ := hr
    obtain ⟨hc, -⟩ := after (a := .expr _) hcov .assigned ⟨hat, hsee.assigned⟩ hv
    exact ⟨Γ, Γ, hat.next hc, hsee.known _ (List.mem_append_right _ (List.mem_singleton.mpr rfl)), .inl rfl⟩
  | this =>
    obtain ⟨hat, hsee⟩ := hr
    exact ⟨Γ, Γ, hat, hsee.known _ (List.mem_singleton.mpr rfl), .inl rfl⟩
  | super =>
    obtain ⟨hat, ho⟩ := hr
    exact ⟨Γ, Γ, hat, ho, .inl rfl⟩
  | superclass =>
    obtain ⟨hat, href⟩ := hr
    obtain ⟨ho, -, hne⟩ := href _ rfl
    exact ⟨Γ, _, hat, ho, .inr ⟨_, hne, rfl⟩⟩

/-- Where a ready moment accesses a variable, table and environment agree. -/
theorem ready_accesses (hcov : w.Covers x) (hr : x.activity.Ready w Γ x.machine) {id : NodeId} {name : Name}
    (ha : x.Accesses id name m) : w.Agrees m id name.text := by
  obtain ⟨Γ', scopes, hat, ho, rfl | ⟨cls, hne, rfl⟩⟩ := ready_accessed hcov hr ha
  · exact hat.agrees ho
  · exact hat.agrees_superclass ho hne

end World

end Lox
