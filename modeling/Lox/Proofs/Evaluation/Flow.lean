import Lox.Proofs.Evaluation.Sound

/-!
# Statements end as stated

Bodies, statements and loops, and from them, by induction on the fuel, every ready moment.
-/

namespace Lox

namespace World

variable {w : World} {n : Nat} {m m' : Machine} {Γ : Scopes} {x : Moment}

theorem FlowAfter.result : ∀ {flow : Flow}, w.FlowAfter Γ m flow → w.ValueReady m.store flow.result
  | .completed, _ => trivial
  | .returned _, h => h
  | .broke, _ => trivial

/-- The end of statements in an inner environment, seen from outside of it. -/
theorem FlowAfter.outside {Γ' : Scopes} {env : Env} (h : w.Models m.store env Γ) :
    ∀ {flow : Flow}, w.FlowAfter Γ' m flow → w.FlowAfter Γ { m with env } flow
  | .completed, _ => h
  | .returned _, hv => hv
  | .broke, _ => trivial

/-! ## Bodies -/

theorem CallReady.deeper {c : Closure} {args : List Value} (h : w.CallReady m c args) (d : Nat) :
    w.CallReady { m with depth := d } c args :=
  ⟨⟨h.ready.store, h.ready.table⟩, h.callable, h.arity, h.arguments⟩

theorem sound_enter (ih : w.SoundWith n) (c : Closure) (args : List Value) (line : Nat) (m : Machine) :
    Moment.Sound w ⟨n + 1, .enter c args line, m⟩ := by
  intro Γ hcov h
  have h : w.CallReady m c args := h
  change w.Ends m _ _ (Eval.enter (n + 1) c args line m)
  rw [Eval.enter]
  refine Ends.asCall h.ready (.other rfl nofun) (fun _ _ hv => hv) fun hd => ?_
  exact Ends.last ih hcov (.runBody c args) (.enter hd) (Γ := Γ) (h.deeper _) fun _ _ _ h => h

theorem CallReady.body {c : Closure} {args : List Value} (h : w.CallReady m c args) {env : Env}
    (hframe : Eval.newFrame (argumentFrame c.routine.params args) c.env m = .done env m')
    (hcreated : w.created env (.routine c.routine)) : ∃ Γ, (Activity.stmts c.routine.body).Ready w Γ { m' with env } := by
  obtain ⟨hm, ⟨Γ, hc⟩, hl, hargs⟩ := h
  obtain ⟨hcont, f, rfl, hlt, hvars⟩ :=
    (Ends.newFrame (F := fun _ => True) hm c.env (fun _ _ hv => hargs _ (mem_of_argumentFrame hv))
      fun _ _ heq => by cases hframe.symm.trans heq; exact ⟨_, hcreated⟩).of_done hframe
  have hact : w.Activation m'.store f c.env (.ofRoutine c.routine) := .ofRoutine hlt hvars hcreated hl hc.sees.params
  have hat : w.At { m' with env := f :: c.env } (.ofRoutine c.routine :: Γ) :=
    ⟨⟨hcont.ready.store, hcont.ready.table⟩, .scope hact (hc.models.grow hcont.grows)⟩
  exact ⟨_, hat, by rintro _ ⟨⟩; rfl, hc.sees.body⟩

theorem sound_runBody (ih : w.SoundWith n) (c : Closure) (args : List Value) (m : Machine) :
    Moment.Sound w ⟨n + 1, .runBody c args, m⟩ := by
  intro Γ hcov h
  have h : w.CallReady m c args := h
  change w.Ends m _ _ (Eval.runBody (n + 1) c args m)
  rw [Eval.runBody]
  refine (Ends.newFrame h.ready c.env (fun _ _ hv => h.arguments _ (mem_of_argumentFrame hv))
    fun _ _ hframe => ⟨_, hcov.creates (.body hframe)⟩).bind fun env m₁ hframe hcont _ => ?_
  obtain ⟨Γ', hin⟩ := h.body hframe (hcov.creates (.body hframe))
  have hbody := Ends.last ih hcov (.stmts c.routine.body) (.body hframe) hin fun _ _ _ h => h
  have hflow : w.Ends m₁ _ (fun flow m' => w.ValueReady m'.store flow.result)
      (Eval.within env (Eval.executeAll n c.routine.body) m₁) :=
    Ends.within hbody fun _ m₂ _ hflow => FlowAfter.result (m := m₂) hflow
  refine hflow.bind fun flow m₂ _ hc₂ hresult => ?_
  split
  · rename_i hi
    exact Ends.receiverOf hc₂.ready (h.callable.grow (hcont.grows.trans hc₂.grows)) hi
  · exact Ends.pure hc₂.ready hresult

/-! ## Statements -/

theorem sound_superclass (cls : Name) (ref : Option Reference) (m : Machine) :
    Moment.Sound w ⟨n + 1, .superclass cls ref, m⟩ := by
  intro Γ hcov h
  obtain ⟨hat, href⟩ := h
  change w.Ends m _ _ (Eval.evaluateSuperclass (n + 1) ref m)
  cases ref with
  | none =>
    rw [Eval.evaluateSuperclass]
    exact Ends.pure hat.ready ⟨rfl, nofun⟩
  | some r =>
    rw [Eval.evaluateSuperclass]
    obtain ⟨_, hn, _⟩ := href r rfl
    refine (Ends.lookUp hat.ready fun hv => .access .superclass hn.1 hv).bind fun v m₁ _ hc hready => ?_
    cases v with
    | klass c => exact Ends.pure hc.ready ⟨rfl, by rintro _ ⟨⟩; exact hready⟩
    | _ => exact Ends.refuse hc.ready rfl nofun

theorem sound_stmts (ih : w.SoundWith n) (sts : List Stmt) (m : Machine) : Moment.Sound w ⟨n + 1, .stmts sts, m⟩ := by
  intro Γ hcov h
  obtain ⟨hat, hset, hsee⟩ := h
  change w.Ends m _ _ (Eval.executeAll (n + 1) sts m)
  cases sts with
  | nil =>
    rw [Eval.executeAll]
    refine Ends.pure hat.ready ?_
    change w.Models m.store m.env (Γ.declare [])
    rw [Scopes.declare_nil]
    exact hat.models
  | cons st sts =>
    rw [Eval.executeAll]
    refine Ends.call ih hcov (.stmt st) .first ⟨hat, hset, hsee.first⟩ fun flow m₁ hf hc hflow => ?_
    cases flow with
    | completed =>
      refine Ends.last ih hcov (.stmts sts) (.rest hf) ⟨⟨hc.ready, hflow⟩, hset.declare, hsee.rest⟩ fun flow m₂ _ h => ?_
      change w.FlowAfter (Scopes.declare (declaredBy sts ++ st.declares) Γ) m₂ flow
      rw [← Scopes.declare_append]
      exact h
    | returned v => exact Ends.pure hc.ready hflow
    | broke => exact Ends.pure hc.ready trivial

theorem sound_loop (ih : w.SoundWith n) (c : Expr) (st : Stmt) (m : Machine) : Moment.Sound w ⟨n + 1, .loop c st, m⟩ := by
  intro Γ hcov h
  obtain ⟨hat, hset, hcond, hbody, hd⟩ := h
  change w.Ends m _ _ (Eval.repeatWhile (n + 1) c st m)
  rw [Eval.repeatWhile]
  refine Ends.call ih hcov (.expr c) .loopCondition ⟨hat, hcond⟩ fun v m₁ hv hc _ => ?_
  split
  · rename_i ht
    have hat₁ := hat.next hc
    refine Ends.call ih hcov (.stmt st) (.loopBody hv ht) ⟨hat₁, hset, hbody⟩ fun flow m₂ hf hc₂ hflow => ?_
    have hat₂ := hat₁.next hc₂
    cases flow with
    | completed => exact Ends.last ih hcov (.loop c st) (.again hv ht hf) ⟨hat₂, hset, hcond, hbody, hd⟩ fun _ _ _ h => h
    | returned v => exact Ends.pure hc₂.ready hflow
    | broke => exact Ends.pure hc₂.ready hat₂.models
  · exact Ends.pure hc.ready (hat.next hc).models

theorem At.block (h : w.At m Γ) {sts : List Stmt} (hsee : w.SeesStmt (.block sts) Γ) {env : Env}
    (hframe : Eval.newFrame .empty m.env m = .done env m') (hcreated : w.created env (.block sts)) :
    (Activity.stmts sts).Ready w (.ofBlock sts :: Γ) { m' with env } := by
  obtain ⟨hcont, f, rfl, hlt, -⟩ :=
    (Ends.newFrame (F := fun _ => True) h.ready m.env (fun _ _ hv => by cases hv)
      fun _ _ heq => by cases hframe.symm.trans heq; exact ⟨_, hcreated⟩).of_done hframe
  have hact : w.Activation m'.store f m.env (.ofBlock sts) := .ofBlock hlt hcreated
  have hat : w.At { m' with env := f :: m.env } (.ofBlock sts :: Γ) :=
    ⟨⟨hcont.ready.store, hcont.ready.table⟩, .scope hact (h.models.grow hcont.grows)⟩
  exact ⟨hat, by rintro _ ⟨⟩; rfl, hsee⟩

/-- A statement that declares nothing leaves the environment as it is. -/
theorem At.kept {st : Stmt} (h : w.At m Γ) (hd : st.declares = []) (hc : w.Continues m m') :
    w.Models m'.store m'.env (Γ.declare st.declares) := by
  rw [hd, Scopes.declare_nil]
  exact (h.next hc).models

theorem sound_varDecl (ih : w.SoundWith n) (name : Name) (init : Option Expr) (m : Machine) :
    Moment.Sound w ⟨n + 1, .stmt (.varDecl name init), m⟩ := by
  intro Γ hcov h
  obtain ⟨hat, hset, hsee⟩ := h
  change w.Ends m _ (fun flow m' => w.FlowAfter (Γ.declare (Stmt.varDecl name init).declares) m' flow)
    (Eval.execute (n + 1) (.varDecl name init) m)
  cases init with
  | none =>
    rw [Eval.execute]
    have hn : name.IsPlain := hsee.proper
    refine (Ends.define (v := .nil) hat hn (fun _ _ _ => trivial) (.other rfl nofun)).bind fun _ m₁ _ hc h => ?_
    exact Ends.pure hc.ready h.1
  | some e =>
    rw [Eval.execute]
    have hn : name.IsPlain := hsee.proper.1
    have hin : w.At m (Γ.enterInitializer name.text) := ⟨hat.ready, hat.models.enterInitializer hset hn⟩
    refine Ends.call ih hcov (.expr e) .varDecl ⟨hin, hsee.initializer⟩ fun v m₁ _ hc hready => ?_
    refine (Ends.define (hat.next hc) hn (fun s hg _ => ValueReady.grow hready hg) (.other rfl nofun)).bind ?_
    exact fun _ m₂ _ hc₂ h => Ends.pure hc₂.ready h.1

theorem sound_block (ih : w.SoundWith n) (sts : List Stmt) (m : Machine) :
    Moment.Sound w ⟨n + 1, .stmt (.block sts), m⟩ := by
  intro Γ hcov h
  obtain ⟨hat, hset, hsee⟩ := h
  change w.Ends m _ (fun flow m' => w.FlowAfter (Γ.declare (Stmt.block sts).declares) m' flow)
    (Eval.execute (n + 1) (.block sts) m)
  rw [Eval.execute]
  refine Ends.bind (Q := fun env m' => m' = m ∧ env = m.env) ⟨.refl hat.ready, rfl, rfl⟩ ?_
  intro _ m _ _ h
  obtain ⟨rfl, rfl⟩ := h
  refine (Ends.newFrame hat.ready m.env (fun _ _ hv => by cases hv) fun _ _ hframe => ⟨_, hcov.creates (.block hframe)⟩).bind
    fun env m₁ hframe hc _ => ?_
  have hin := hat.block hsee hframe (hcov.creates (.block hframe))
  have hbody := Ends.last ih hcov (.stmts sts) (.block hframe) hin fun _ _ _ h => h
  refine Ends.within hbody fun flow m₂ hc₂ hflow => ?_
  rw [Stmt.declares, Scopes.declare_nil]
  exact FlowAfter.outside ((hat.next hc).models.grow hc₂.grows) hflow

theorem sound_branch (ih : w.SoundWith n) (c : Expr) (st : Stmt) (st' : Option Stmt) (m : Machine) :
    Moment.Sound w ⟨n + 1, .stmt (.branch c st st'), m⟩ := by
  intro Γ hcov h
  obtain ⟨hat, hset, hsee⟩ := h
  change w.Ends m _ (fun flow m' => w.FlowAfter (Γ.declare (Stmt.branch c st st').declares) m' flow)
    (Eval.execute (n + 1) (.branch c st st') m)
  cases st' with
  | none =>
    rw [Eval.execute]
    refine Ends.call ih hcov (.expr c) .condition ⟨hat, hsee.condition⟩ fun v m₁ hv hc _ => ?_
    split
    · rename_i ht
      exact Ends.last ih hcov (.stmt st) (.thenBranch hv ht) ⟨hat.next hc, hset, hsee.thenBranch⟩ fun _ _ _ h => h
    · exact Ends.pure hc.ready (hat.kept hsee.proper.2.2 hc)
  | some st' =>
    have hd := hsee.proper.2.1.2
    have hd' := hsee.proper.2.2.2
    rw [Eval.execute]
    refine Ends.call ih hcov (.expr c) .condition ⟨hat, hsee.condition⟩ fun v m₁ hv hc _ => ?_
    split
    · rename_i ht
      refine Ends.last ih hcov (.stmt st) (.thenBranch hv ht) ⟨hat.next hc, hset, hsee.thenBranch⟩ fun flow m₂ _ h => ?_
      rw [Stmt.declares, hd', List.nil_append]
      exact h
    · rename_i ht
      refine Ends.last ih hcov (.stmt st') (.elseBranch hv (by simpa using ht)) ⟨hat.next hc, hset, hsee.elseBranch⟩
        fun flow m₂ _ h => ?_
      rw [Stmt.declares, hd, List.append_nil]
      exact h

theorem sound_funDecl (name : Name) (r : Routine) (m : Machine) :
    Moment.Sound w ⟨n + 1, .stmt (.funDecl name r), m⟩ := by
  intro Γ hcov h
  obtain ⟨hat, hset, hsee⟩ := h
  change w.Ends m _ (fun flow m' => w.FlowAfter (Γ.declare (Stmt.funDecl name r).declares) m' flow)
    (Eval.execute (n + 1) (.funDecl name r) m)
  rw [Eval.execute]
  have hn : name.IsPlain := hsee.proper.1
  refine Ends.bind (Q := fun c m' => m' = m ∧ c = ⟨name, r, false, false, m.env⟩) ⟨.refl hat.ready, rfl, rfl⟩ ?_
  intro _ m _ _ h
  obtain ⟨rfl, rfl⟩ := h
  refine (Ends.newFunction hat.ready _).bind fun f m₁ _ hc hf => ?_
  refine (Ends.define (hat.next hc) hn (fun s _ hmodels => ?_) (.other rfl nofun)).bind
    fun _ m₂ _ hc₂ h => Ends.pure hc₂.ready h.1
  -- the function sees its own name
  change w.Callable s f.closure
  rw [hf]
  rw [hc.env] at hmodels
  exact ⟨_, hmodels, Sees.imp hsee (·.2), nofun, nofun⟩

theorem sound_classDecl (ih : w.SoundWith n) (name : Name) (ref : Option Reference) (ms ss : List Method) (m : Machine) :
    Moment.Sound w ⟨n + 1, .stmt (.classDecl name ref ms ss), m⟩ := by
  intro Γ hcov h
  obtain ⟨hat, hset, hsee⟩ := h
  change w.Ends m _ (fun flow m' => w.FlowAfter (Γ.declare (Stmt.classDecl name ref ms ss).declares) m' flow)
    (Eval.execute (n + 1) (.classDecl name ref ms ss) m)
  rw [Eval.execute]
  have hn : name.IsPlain := hsee.proper.1
  refine Ends.call ih hcov (.superclass name ref) .superclass ⟨hat, hsee.superclass⟩ fun parent m₁ hp hc hparent => ?_
  have hat₁ := hat.next hc
  refine (Ends.define (v := .nil) hat₁ hn (fun _ _ _ => trivial) (.other rfl nofun)).bind
    fun _ m₂ hdef hc₂ ⟨hmodels, f, hhead, hf⟩ => ?_
  have hat₂ : w.At m₂ (Γ.declare [name.text]) := ⟨hc₂.ready, hmodels⟩
  have hparent₂ : w.ParentReady m₂.store ref parent := ⟨hparent.1, fun p hp => (hparent.2 p hp).grow hc₂.grows⟩
  refine (Ends.newClass hat₂ rfl hparent₂ hsee.methods hsee.statics fun c env m₃ hc hframe => ?_).bind
    fun c m₃ _ hc₃ hcls => ?_
  · subst hc
    cases ref with
    | none => cases hparent.1
    | some r => exact hcov.creates (.derived hp hdef hframe)
  · have hhead₃ : ∃ f ∈ m₃.env.head?, (m₃.store.var? f name.text).isSome :=
      ⟨f, by rw [hc₃.env]; exact hhead, hc₃.grows.bound f _ hf⟩
    refine (Ends.overwrite (v := .klass c) hc₃.ready hn hcls hhead₃).bind fun _ m₄ _ hc₄ _ => Ends.pure hc₄.ready ?_
    exact (hat₂.next (hc₃.trans hc₄)).models

theorem sound_stmt (ih : w.SoundWith n) (st : Stmt) (m : Machine) : Moment.Sound w ⟨n + 1, .stmt st, m⟩ := by
  intro Γ hcov h
  obtain ⟨hat, hset, hsee⟩ := h
  change w.Ends m _ (fun flow m' => w.FlowAfter (Γ.declare st.declares) m' flow) (Eval.execute (n + 1) st m)
  cases st with
  | varDecl name init => exact sound_varDecl ih name init m Γ hcov ⟨hat, hset, hsee⟩
  | block sts => exact sound_block ih sts m Γ hcov ⟨hat, hset, hsee⟩
  | branch c st st' => exact sound_branch ih c st st' m Γ hcov ⟨hat, hset, hsee⟩
  | funDecl name r => exact sound_funDecl name r m Γ hcov ⟨hat, hset, hsee⟩
  | classDecl name ref ms ss => exact sound_classDecl ih name ref ms ss m Γ hcov ⟨hat, hset, hsee⟩
  | expr e =>
    rw [Eval.execute]
    exact Ends.call ih hcov (.expr e) .statement ⟨hat, hsee⟩ fun _ m₁ _ hc _ => Ends.pure hc.ready (hat.kept rfl hc)
  | print e =>
    rw [Eval.execute]
    refine Ends.call ih hcov (.expr e) .print ⟨hat, hsee⟩ fun v m₁ _ hc _ => ?_
    refine (Ends.writeLine hc.ready (.other rfl nofun)).bind fun _ m₂ _ hc₂ _ => ?_
    exact Ends.pure hc₂.ready (hat.kept rfl (hc.trans hc₂))
  | loop c st =>
    rw [Eval.execute]
    have hd := hsee.proper.2.2
    refine Ends.last ih hcov (.loop c st) .loop ⟨hat, hset, hsee.loopCondition, hsee.loopBody, hd⟩ fun flow m₁ _ h => ?_
    rw [Stmt.declares, hd, Scopes.declare_nil]
    exact h
  | returns form line e =>
    cases e with
    | none =>
      rw [Eval.execute]
      exact Ends.pure hat.ready trivial
    | some e =>
      rw [Eval.execute]
      exact Ends.call ih hcov (.expr e) .returns ⟨hat, hsee⟩ fun _ m₁ _ hc hready => Ends.pure hc.ready hready
  | breaks line =>
    rw [Eval.execute]
    exact Ends.pure hat.ready trivial

/-- Every ready moment ends as stated. -/
theorem sound (w : World) : ∀ n, w.SoundWith n
  | 0, a, _ => by
    intro Γ _ _
    rw [Moment.outcome, Activity.run_zero]
    trivial
  | n + 1, a, m => by
    have ih := sound w n
    cases a with
    | expr e => exact sound_expr ih e m
    | exprs es => exact sound_exprs ih es m
    | setProperty object name value => exact sound_setProperty ih object name value m
    | property object name => exact sound_property ih object name m
    | superProperty id line method => exact sound_superProperty ih id line method m
    | methodOf c i line => exact sound_methodOf ih c i line m
    | call v args line => exact sound_call ih v args line m
    | apply f args line => exact sound_apply ih f args line m
    | enter c args line => exact sound_enter ih c args line m
    | runBody c args => exact sound_runBody ih c args m
    | stmt st => exact sound_stmt ih st m
    | superclass cls ref => exact sound_superclass cls ref m
    | stmts sts => exact sound_stmts ih sts m
    | loop c st => exact sound_loop ih c st m

end World

end Lox
