import Lox.Proofs.Evaluation.World

/-!
# What the evaluation needs and keeps

When a moment is ready, and what holds after it. An evaluation ends in one of these ways: with a
ready result, with a fault that it may have, or not at all.
-/

namespace Lox

/-- Faults that only a program that nothing has checked could meet. -/
def RuntimeFault.isInternal : RuntimeFault → Bool
  | .invalidUnaryOperator => true
  | .invalidBinaryOperator => true
  | .unresolvedSuper => true
  | .unresolvedThis => true
  | .naming (.undefined name) => name == "this"
  | _ => false

def Error.isInternal : Error → Bool
  | .runtime _ fault => fault.isInternal
  | _ => false

/-- The variable that the node with the identity means. -/
def Machine.lookUp? (m : Machine) (id : NodeId) (name : String) : Option Value :=
  match m.bindings.get? id with
  | some distance => m.store.readAt m.env distance name
  | none => m.global? name

/-- The moment may end in the error: it is no internal one, and where it is that of an undefined
variable, a node is to blame whose variable is not there. -/
structure Moment.Blames (x : Moment) (e : Error) : Prop where
  external : e.isInternal = false
  traced : ∀ line text, e = .runtime line (.naming (.undefined text)) →
    ∃ y id m, x.Reaches y ∧ y.Accesses id ⟨text, line⟩ m ∧ m.lookUp? id text = none

namespace Moment.Blames

variable {x y : Moment} {e : Error}

theorem calls (hc : x.Calls y) (h : y.Blames e) : x.Blames e where
  external := h.external
  traced line text he := by
    obtain ⟨z, id, m, hr, ha⟩ := h.traced line text he
    exact ⟨z, id, m, .step hc hr, ha⟩

/-- Errors other than that of an undefined variable blame no node. -/
theorem other (h : e.isInternal = false) (hu : ∀ line text, e ≠ .runtime line (.naming (.undefined text))) : x.Blames e :=
  ⟨h, fun line text he => absurd he (hu line text)⟩

theorem access {id : NodeId} {name : Name} {m : Machine} (ha : x.Accesses id name m) (hn : name.text ≠ "this")
    (hv : m.lookUp? id name.text = none) : x.Blames (.runtime name.line (Eval.undefined name)) where
  external := by simpa [Error.isInternal, Eval.undefined, RuntimeFault.isInternal] using hn
  traced line text he := by cases he; exact ⟨x, id, m, .refl, ha, hv⟩

end Moment.Blames

namespace World

variable (w : World)

/-- All environments that the moment creates, now or later, were created in this world. -/
def Covers (x : Moment) : Prop := ∀ y env opener, x.Reaches y → y.Creates env opener → w.created env opener

variable {w} in
theorem Covers.calls {x y : Moment} (h : w.Covers x) (hc : x.Calls y) : w.Covers y :=
  fun z env opener hr => h z env opener (.step hc hr)

variable {w} in
theorem Covers.creates {x : Moment} (h : w.Covers x) {env : Env} {opener : Opener} (hc : x.Creates env opener) :
    w.created env opener :=
  h x env opener .refl hc

/-- The second machine is ready, and what the first one has is still there. -/
structure Continues (m m' : Machine) : Prop where
  ready : w.MachineReady m'
  grows : m.store.Grows m'.store
  env : m'.env = m.env
  depth : m'.depth = m.depth
  bindings : m'.bindings = m.bindings

/-- The machine is ready, and its environment is one of the scopes. -/
structure At (m : Machine) (Γ : Scopes) : Prop where
  ready : w.MachineReady m
  models : w.Models m.store m.env Γ

variable {w} {m m' m'' : Machine} {Γ : Scopes}

theorem Continues.refl (h : w.MachineReady m) : w.Continues m m := ⟨h, .refl _, rfl, rfl, rfl⟩

theorem Continues.trans (h : w.Continues m m') (h' : w.Continues m' m'') : w.Continues m m'' :=
  ⟨h'.ready, h.grows.trans h'.grows, h'.env.trans h.env, h'.depth.trans h.depth, h'.bindings.trans h.bindings⟩

theorem At.next (h : w.At m Γ) (hc : w.Continues m m') : w.At m' Γ :=
  ⟨hc.ready, by rw [hc.env]; exact h.models.grow hc.grows⟩

/-! ## How an evaluation ends -/

section
variable {α β : Type} {F : Error → Prop} {Q : α → Machine → Prop} {Q' : β → Machine → Prop}

/-- From the machine `m` on the outcome is a result with `Q`, or an error with `F`, or none. -/
def Ends (w : World) (m : Machine) (F : Error → Prop) (Q : α → Machine → Prop) : Outcome Machine Error α → Prop
  | .done a m' => w.Continues m m' ∧ Q a m'
  | .failed e m' => w.Continues m m' ∧ F e
  | .exhausted => True

namespace Ends

theorem bind {body : Eval α} {next : α → Eval β} (h : w.Ends m F Q (body m))
    (hn : ∀ a m', body m = .done a m' → w.Continues m m' → Q a m' → w.Ends m' F Q' (next a m')) :
    w.Ends m F Q' ((body >>= next) m) := by
  rw [Run.bind_apply]
  cases hb : body m with
  | exhausted => trivial
  | failed e m' => rw [hb] at h; exact h
  | done a m' =>
    rw [hb] at h
    have hn := hn a m' hb h.1 h.2
    simp only
    cases hr : next a m' with
    | exhausted => trivial
    | failed e m'' => rw [hr] at hn; exact ⟨h.1.trans hn.1, hn.2⟩
    | done b m'' => rw [hr] at hn; exact ⟨h.1.trans hn.1, hn.2⟩

theorem imp {F' : Error → Prop} {Q' : α → Machine → Prop} {o : Outcome Machine Error α} (h : w.Ends m F Q o)
    (hf : ∀ e, F e → F' e) (hq : ∀ a m', o = .done a m' → w.Continues m m' → Q a m' → Q' a m') : w.Ends m F' Q' o := by
  cases o with
  | exhausted => trivial
  | failed e m' => exact ⟨h.1, hf e h.2⟩
  | done a m' => exact ⟨h.1, hq a m' rfl h.1 h.2⟩

theorem of_done {o : Outcome Machine Error α} {a : α} (h : w.Ends m F Q o) (ho : o = .done a m') :
    w.Continues m m' ∧ Q a m' := by
  rw [ho] at h
  exact h

theorem pure {a : α} (hm : w.MachineReady m) (h : Q a m) : w.Ends m F Q ((Pure.pure a : Eval α) m) := ⟨.refl hm, h⟩

theorem fail {line : Nat} {fault : RuntimeFault} (hm : w.MachineReady m) (h : F (.runtime line fault)) :
    w.Ends m F Q (Eval.fail line fault m) :=
  ⟨.refl hm, h⟩

theorem within {env : Env} {body : Eval α} {Q' : α → Machine → Prop} (h : w.Ends { m with env } F Q' (body { m with env }))
    (hq : ∀ a m', w.Continues { m with env } m' → Q' a m' → Q a { m' with env := m.env }) :
    w.Ends m F Q (Eval.within env body m) := by
  have back : ∀ {m'}, w.Continues { m with env } m' → w.Continues m { m' with env := m.env } :=
    fun hc => ⟨⟨hc.ready.store, hc.ready.table⟩, hc.grows, rfl, hc.depth, hc.bindings⟩
  unfold Eval.within
  cases hb : body { m with env } with
  | exhausted => trivial
  | failed e m' => rw [hb] at h; exact ⟨back h.1, h.2⟩
  | done a m' => rw [hb] at h; exact ⟨back h.1, hq a m' h.1 h.2⟩

/-- One call more fails where there are too many, and otherwise ends like the body. -/
theorem asCall {line : Nat} {body : Eval α} (hm : w.MachineReady m) (hs : F (.runtime line .stackOverflow))
    (hq : ∀ a m', Q a m' → Q a { m' with depth := m.depth })
    (h : ¬ maxDepth ≤ m.depth → w.Ends { m with depth := m.depth + 1 } F Q (body { m with depth := m.depth + 1 })) :
    w.Ends m F Q (Eval.asCall line body m) := by
  have back : ∀ {m'}, w.Continues { m with depth := m.depth + 1 } m' → w.Continues m { m' with depth := m.depth } :=
    fun hc => ⟨⟨hc.ready.store, hc.ready.table⟩, hc.grows, hc.env, rfl, hc.bindings⟩
  unfold Eval.asCall
  split
  · exact ⟨.refl hm, hs⟩
  · rename_i hd
    have h := h hd
    dsimp only
    cases hb : body { m with depth := m.depth + 1 } with
    | exhausted => trivial
    | failed e m' => rw [hb] at h; exact ⟨back h.1, h.2⟩
    | done a m' => rw [hb] at h; exact ⟨back h.1, hq a m' h.2⟩

end Ends

end

end World

/-! ## Before and after a moment -/

def World.ValuesReady (w : World) (s : Store) (vs : List Value) : Prop := ∀ v ∈ vs, w.ValueReady s v

/-- There is a class where there is a superclass. -/
def World.ParentReady (w : World) (s : Store) (ref : Option Reference) (c : Option Class) : Prop :=
  c.isSome = ref.isSome ∧ ∀ p ∈ c, w.ClassReady s p

/-- What holds of a function object's code and arguments before a call. -/
structure World.CallReady (w : World) (m : Machine) (c : Closure) (arguments : List Value) : Prop where
  ready : w.MachineReady m
  callable : w.Callable m.store c
  arity : arguments.length = c.arity
  arguments : w.ValuesReady m.store arguments

def World.CalleeReady (w : World) (m : Machine) : Callee → Prop
  | .native _ => True
  | .closure c => w.Callable m.store c
  | .construct c => w.ClassReady m.store c

/-- The work can be done on the machine, in these scopes where scopes matter to it. -/
def Activity.Ready (w : World) (Γ : Scopes) (m : Machine) : Activity → Prop
  | .expr e => w.At m Γ ∧ w.SeesExpr e Γ
  | .exprs es => w.At m Γ ∧ w.SeesExprs es Γ
  | .setProperty object _ value => w.At m Γ ∧ w.SeesExpr value Γ ∧ w.ValueReady m.store object
  | .property object _ => w.MachineReady m ∧ w.ValueReady m.store object
  | .superProperty id _ _ => w.At m Γ ∧ w.known ⟨id, "super", Γ⟩
  | .methodOf method receiver _ => w.MachineReady m ∧ w.Bindable m.store method ∧ w.ClassReady m.store receiver.cls
  | .call callee arguments _ => w.MachineReady m ∧ w.ValueReady m.store callee ∧ w.ValuesReady m.store arguments
  | .apply callee arguments _ =>
    w.MachineReady m ∧ w.CalleeReady m callee ∧ arguments.length = callee.arity ∧
      w.ValuesReady m.store arguments
  | .enter c arguments _ => w.CallReady m c arguments
  | .runBody c arguments => w.CallReady m c arguments
  | .stmt st => w.At m Γ ∧ World.Settled Γ ∧ w.SeesStmt st Γ
  | .superclass cls ref =>
    w.At m Γ ∧ ∀ r ∈ ref, w.known ⟨r.id, r.name.text, Γ.declare [cls.text]⟩ ∧ r.name.IsPlain ∧ Name.Differ cls r.name
  | .stmts sts => w.At m Γ ∧ World.Settled Γ ∧ w.SeesStmts sts Γ
  | .loop condition body =>
    w.At m Γ ∧ World.Settled Γ ∧ w.SeesExpr condition Γ ∧ w.SeesStmt body Γ ∧ body.declares = []

/-- After statements that complete, the environment is one of the scopes with their names. -/
def World.FlowAfter (w : World) (Γ : Scopes) (m : Machine) : Flow → Prop
  | .completed => w.Models m.store m.env Γ
  | .returned v => w.ValueReady m.store v
  | .broke => True

def Activity.After (w : World) (Γ : Scopes) : (a : Activity) → a.Result → Machine → Prop
  | .expr _, v, m => w.ValueReady m.store v
  | .exprs _, vs, m => w.ValuesReady m.store vs
  | .setProperty _ _ _, v, m => w.ValueReady m.store v
  | .property _ _, v, m => w.ValueReady m.store v
  | .superProperty _ _ _, v, m => w.ValueReady m.store v
  | .methodOf _ _ _, v, m => w.ValueReady m.store v
  | .call _ _ _, v, m => w.ValueReady m.store v
  | .apply _ _ _, v, m => w.ValueReady m.store v
  | .enter _ _ _, v, m => w.ValueReady m.store v
  | .runBody _ _, v, m => w.ValueReady m.store v
  | .stmt st, flow, m => w.FlowAfter (Γ.declare st.declares) m flow
  | .superclass _ ref, c, m => w.ParentReady m.store ref c
  | .stmts sts, flow, m => w.FlowAfter (Γ.declare (declaredBy sts)) m flow
  | .loop _ _, flow, m => w.FlowAfter Γ m flow

end Lox
