import Lox.Proofs.Session.Arising
import Lox.Proofs.Session.Receivers

/-!
# Construction gives the instance

A class that is called gives the new instance, however its `init` ends and whichever class declares it. Any later call of an
`init` gives the instance that it is bound to: it reads `this` from its own environment, where nothing can overwrite it.
-/

namespace Lox

open Eval

/-! ## Names of methods -/

/-- The method has that name, and is an initializer if that is `init`. -/
structure FunctionObject.Names (f : FunctionObject) (x : String) : Prop where
  name : f.closure.name.text = x
  isInitializer : f.closure.isInitializer = decide (x = "init")

/-- The methods of the class and of its ancestors are under their names. -/
def Class.Named (c : Class) : Prop := ∀ layer ∈ c.lineage, ∀ x f, layer.methods.get? x = some f → f.Names x

/-- The class of the value has methods under their names. -/
def Value.Named : Value → Prop
  | .klass c => c.Named
  | .object i => i.cls.Named
  | .bound b => b.receiver.cls.Named
  | _ => True

theorem Class.Named.method {c : Class} (h : c.Named) {x : String} {f : FunctionObject} (hf : c.method? x = some f) :
    f.Names x := by
  obtain ⟨layer, hl, hf⟩ := List.exists_of_findSome?_eq_some hf
  exact h layer hl x f hf

namespace Eval

variable {m m' : Machine}

/-- Where a call ends, the arguments are as many as they have to be. -/
theorem call_done : ∀ {n line : Nat} {u v : Value} {args : List Value}, call n u args line m = .done v m' →
    ∃ k f, n = k + 1 ∧ u.callee? = some f ∧ args.length = f.arity ∧ apply k f args line m = .done v m'
  | n + 1, line, u, v, args, h => by
    rw [call] at h
    cases hf : u.callee? with
    | none => rw [hf] at h; cases h
    | some f =>
      rw [hf] at h
      dsimp only at h
      split at h
      · exact ⟨n, f, rfl, rfl, ‹_›, h⟩
      · cases h

theorem apply_construct_done : ∀ {n line : Nat} {c : Class} {v : Value} {args : List Value},
    apply n (.construct c) args line m = .done v m' → v = .object (m.store.construct c).1
  | n + 1, line, c, v, args, h => by
    obtain ⟨i, m₁, hi, h⟩ := Run.of_bind_done h
    cases hi
    cases hf : c.initializer? with
    | none => rw [hf] at h; cases h; rfl
    | some f =>
      rw [hf] at h
      obtain ⟨b, m₂, -, h⟩ := Run.of_bind_done h
      obtain ⟨u, m₃, -, h⟩ := Run.of_bind_done h
      cases h
      rfl

theorem methodTable_names {env : Env} : ∀ {ms : List Method} {table t : Dict FunctionObject} {m : Machine},
    methodTable env true ms table m = .done t m' → (∀ x f, table.get? x = some f → f.Names x) →
    ∀ x f, t.get? x = some f → f.Names x
  | [], _, _, _, h, ht => by cases h; exact ht
  | mm :: ms, table, t, m, h, ht => by
    obtain ⟨f, m₁, hf, h⟩ := Run.of_bind_done h
    refine methodTable_names h fun x g hg => ?_
    rw [Dict.get?_insert] at hg
    split at hg
    · rename_i hx
      cases hg; cases hf
      exact ⟨hx.symm, by rw [hx]; rfl⟩
    · exact ht x g hg

theorem newClass_named {name : Name} {parent : Option Class} {ms ss : List Method} {c : Class}
    (h : newClass name parent ms ss m = .done c m') (hp : ∀ k ∈ parent, k.Named) : c.Named := by
  obtain ⟨env, m₁, -, h⟩ := Run.of_bind_done h
  obtain ⟨mt, m₂, hmt, h⟩ := Run.of_bind_done h
  obtain ⟨st, m₃, -, h⟩ := Run.of_bind_done h
  obtain ⟨serial, m₄, -, h⟩ := Run.of_bind_done h
  cases h
  intro layer hl
  cases hl with
  | head => exact methodTable_names hmt nofun
  | tail _ hl =>
    cases parent with
    | none => cases hl
    | some k => exact hp k rfl layer hl

theorem bindThis_code {c b : Closure} {o : Instance} (h : bindThis c o m = .done b m') : ∃ env, b = { c with env } := by
  cases h
  exact ⟨_, rfl⟩

theorem receiverOf_done {c : Closure} {v : Value} (h : receiverOf c m = .done v m') :
    m' = m ∧ m.store.readAt c.env 0 "this" = some v := by
  unfold receiverOf at h
  split at h
  · rename_i u hu
    cases h
    exact ⟨rfl, hu⟩
  · cases h

theorem asCall_done {α : Type} {line : Nat} {body : Eval α} {a : α} (h : asCall line body m = .done a m') :
    ¬ maxDepth ≤ m.depth ∧ ∃ m₁, body { m with depth := m.depth + 1 } = .done a m₁ := by
  unfold asCall at h
  split at h
  · cases h
  · rename_i hd
    dsimp only at h
    cases ho : body { m with depth := m.depth + 1 } <;> rw [ho] at h <;> cases h
    exact ⟨hd, _, rfl⟩

end Eval

variable {met : Moment → Prop} {x : Moment} {b c : Closure} {o : Instance}

theorem Moment.Binds.code (h : x.Binds c o b) : ∃ env, b = { c with env } := by
  cases h with
  | access hb => exact bindThis_code hb
  | construction _ _ hb => exact bindThis_code hb

theorem Arises.named {v : Value} (h : Arises met v) : v.Named := by
  induction h with
  | nil | bool | number | string | native | function | static => trivial
  | klass _ hd _ ih =>
    cases hd with
    | classDecl _ _ hc => exact newClass_named hc ih
  | object _ hi _ ih => cases hi; exact ih
  | bound _ _ _ _ _ _ iho => exact iho
  | cls _ ih => exact ih
  | superclass _ hc ih =>
    have ih : Class.Named _ := ih
    exact fun layer hl => ih layer (.tail _ (by rw [hc]; exact hl))
  | receiver _ ih => exact ih

theorem Closure.IsMethod.isInitializer (h : c.IsMethod met) : c.isInitializer = decide (c.name.text = "init") := by
  obtain ⟨k, name, f, hk, hf, rfl⟩ := h
  obtain ⟨hname, hinit⟩ := (Class.Named.method hk.named hf)
  rw [hinit, hname]

/-- What is bound where all values have arisen is a method. -/
theorem Moment.Arisen.binds (h : x.Arisen met) (hb : x.Binds c o b) : c.IsMethod met := by
  cases hb with
  | access => exact h.1.1
  | construction _ hf => exact Arises.isMethod h.1.1 hf

/-! ## Calls of initializers -/

variable {h : History} {r : Request} {n line : Nat} {args : List Value} {m m' : Machine} {v : Value}

/-- An `init` was bound to the instance. -/
def History.BindsInit (h : History) (r : Request) (o : Instance) (b : Closure) : Prop :=
  ∃ x c, h.Met r x ∧ x.Binds c o b ∧ c.name.text = "init"

namespace History.BindsInit

variable (hp : h.Possible) (ha : h.Allows r) (hb : h.BindsInit r o b)
include hp ha hb

/-- A body that ends gives what is in the frame of the receiver. The frame still has the receiver. -/
theorem runBody (hmet : h.Met r ⟨n, .runBody b args, m⟩) (hv : Eval.runBody n b args m = .done v m') : v = .object o := by
  obtain ⟨x, c, hx, hbinds, hname⟩ := hb
  have hlast : h.Passes r m' := hmet.ends (by simp only [Moment.outcome, Activity.run, hv]; rfl)
  have hinit : b.isInitializer = true := by
    obtain ⟨env, rfl⟩ := hbinds.code
    have hc := ((hp.arisen_met ha hx).binds hbinds).isInitializer
    simpa [hname] using hc
  cases n with
  | zero => cases hv
  | succ n =>
    obtain ⟨env, m₁, -, hv⟩ := Run.of_bind_done hv
    obtain ⟨flow, m₂, -, hv⟩ := Run.of_bind_done hv
    rw [if_pos hinit] at hv
    obtain ⟨rfl, hread⟩ := receiverOf_done hv
    obtain ⟨f, m₀, henv, hm₀, hthis⟩ := hbinds.receiver
    rw [henv] at hread
    have hread : m'.store.var? f "this" = some v := hread
    have hfixed := hp.settled ha ⟨x, hx, hm₀⟩ hlast (Store.lt_of_var? hthis) (Store.lt_of_var? hread) (.inl rfl)
    rw [hread, hthis] at hfixed
    exact Option.some.inj hfixed

theorem enter (hmet : h.Met r ⟨n, .enter b args line, m⟩) (hv : Eval.enter n b args line m = .done v m') : v = .object o := by
  cases n with
  | zero => cases hv
  | succ n =>
    obtain ⟨hd, m₁, hv⟩ := asCall_done hv
    exact hb.runBody hp ha (hmet.calls (.enter hd)) hv

theorem call {serial : Nat} (hmet : h.Met r ⟨n, .call (.bound ⟨serial, o, b⟩) args line, m⟩)
    (hv : Eval.call n (.bound ⟨serial, o, b⟩) args line m = .done v m') : v = .object o := by
  obtain ⟨n, f, rfl, hf, hl, hv⟩ := call_done hv
  obtain rfl := Option.some.inj hf
  cases n with
  | zero => cases hv
  | succ n => exact hb.enter hp ha ((hmet.calls (.apply rfl hl)).calls .closure) hv

end History.BindsInit

/-- What reading an `init` of the instance gives: a getter gives the instance, any other method itself, bound to it. -/
def FunctionObject.Gives (f : FunctionObject) (o : Instance) (v : Value) : Prop :=
  if f.closure.isGetter then v = .object o else ∃ serial b, v = .bound ⟨serial, o, b⟩ ∧ b.name.text = "init"

/-- A bound method with that name is an `init` that was bound. -/
theorem Arises.bindsInit {serial : Nat} (hb : Arises (h.Met r) (.bound ⟨serial, o, b⟩)) (hname : b.name.text = "init") :
    h.BindsInit r o b := by
  cases hb with
  | bound hx hbinds =>
    obtain ⟨env, rfl⟩ := hbinds.code
    exact ⟨_, _, hx, hbinds, hname⟩

namespace History.Possible

variable (hp : h.Possible) (ha : h.Allows r)
include hp ha

theorem bound_init {serial : Nat} (hname : b.name.text = "init")
    (hmet : h.Met r ⟨n, .call (.bound ⟨serial, o, b⟩) args line, m⟩)
    (hv : Eval.call n (.bound ⟨serial, o, b⟩) args line m = .done v m') : v = .object o :=
  (Arises.bindsInit (hp.arisen_met ha hmet).1.1 hname).call hp ha hmet hv

theorem methodOf_init {f : FunctionObject} (hname : f.closure.name.text = "init")
    (hmet : h.Met r ⟨n, .methodOf f.closure o line, m⟩) (hv : Eval.methodOf n f.closure o line m = .done v m') :
    f.Gives o v := by
  cases n with
  | zero => cases hv
  | succ n =>
    obtain ⟨b, m₁, hbound, hv⟩ := Run.of_bind_done hv
    obtain ⟨env, hb⟩ := bindThis_code hbound
    have hbinds : h.BindsInit r o b := ⟨_, _, hmet, .access hbound, hname⟩
    have hgetter : b.isGetter = f.closure.isGetter := by rw [hb]
    unfold FunctionObject.Gives
    by_cases hg : f.closure.isGetter = true
    · rw [if_pos (hgetter.trans hg)] at hv
      rw [if_pos hg]
      exact hbinds.enter hp ha (hmet.calls (.getter hbound (hgetter.trans hg))) hv
    · rw [hgetter, if_neg hg] at hv
      rw [if_neg hg]
      obtain ⟨serial, m₂, -, hv⟩ := Run.of_bind_done hv
      cases hv
      exact ⟨serial, b, rfl, by rw [hb]; exact hname⟩

theorem property_init {name : Name} (hname : name.text = "init") (hmet : h.Met r ⟨n, .property (.object o) name, m⟩)
    (hfield : m.store.field? o "init" = none) (hv : Eval.property n (.object o) name m = .done v m') :
    ∃ f, o.cls.initializer? = some f ∧ f.Gives o v := by
  cases n with
  | zero => cases hv
  | succ n =>
    rw [← hname] at hfield
    obtain ⟨found, m₁, hfound, hv⟩ := Run.of_bind_done hv
    obtain ⟨rfl, rfl⟩ := Outcome.done.inj hfound
    dsimp only at hv
    rw [hfield] at hv
    cases hf : o.cls.method? name.text with
    | none => rw [hf] at hv; cases hv
    | some f =>
      rw [hf] at hv
      have hnamed := Class.Named.method (hp.arisen_met ha hmet).1.cls.named hf
      refine ⟨f, by rw [← hf, hname]; rfl, ?_⟩
      exact hp.methodOf_init ha (hnamed.name.trans hname) (hmet.calls (.method hfield hf)) hv

theorem super_init {id : NodeId} {method : Name} (hname : method.text = "init")
    (hmet : h.Met r ⟨n, .superProperty id line method, m⟩) (hv : Eval.superProperty n id line method m = .done v m') :
    ∃ c o f, superClass id line m = .done c m ∧ superReceiver id line m = .done o m ∧ c.initializer? = some f ∧
      f.Gives o v := by
  cases n with
  | zero => cases hv
  | succ n =>
    obtain ⟨c, m₁, hc, hrest⟩ := Run.of_bind_done hv
    obtain ⟨o, m₂, ho, hbind⟩ := Run.of_bind_done hrest
    obtain rfl := superClass_same hc
    obtain rfl := superReceiver_same ho
    cases hf : c.method? method.text with
    | none => rw [hf] at hbind; cases hbind
    | some f =>
      rw [hf] at hbind
      have hcls := ((Leaves.superClass id line).of_done (hp.arisen_met ha hmet).2 hc).2
      have hnamed := Class.Named.method (Arises.named hcls) hf
      refine ⟨c, o, f, hc, ho, by rw [← hf, hname]; rfl, ?_⟩
      exact hp.methodOf_init ha (hnamed.name.trans hname) (hmet.calls (.superMethod hc ho hf)) hbind

/-- A call of what a read of an `init` gives. -/
theorem call_init {f : FunctionObject} {u : Value} (hu : f.Gives o u) (hmet : h.Met r ⟨n, .call u args line, m⟩)
    (hv : Eval.call n u args line m = .done v m') : v = .object o := by
  unfold FunctionObject.Gives at hu
  split at hu
  · subst hu
    obtain ⟨_, _, _, hf, _⟩ := call_done hv
    cases hf
  · obtain ⟨serial, b, rfl, hname⟩ := hu
    exact hp.bound_init ha hname hmet hv

end History.Possible

/-! ## Arguments -/

/-- The class takes that many arguments: those of the nearest `init` of its lineage, or none if there is no `init`. -/
structure Class.Takes (c : Class) (count : Nat) : Prop where
  nearest : ∀ before layer after f, c.lineage = before ++ layer :: after → (∀ l ∈ before, l.methods.get? "init" = none) →
    layer.methods.get? "init" = some f → count = f.closure.routine.params.length
  none : (∀ l ∈ c.lineage, l.methods.get? "init" = none) → count = 0

theorem Class.takes_arity (c : Class) : c.Takes c.arity where
  nearest before layer after f hl hbefore hf := by
    have hinit : c.initializer? = some f := by
      rw [Class.initializer?, Class.method?, hl, List.findSome?_append, List.findSome?_eq_none_iff.mpr hbefore, Option.none_or,
        List.findSome?_cons, hf]
    rw [Class.arity, hinit]
    rfl
  none hl := by
    rw [Class.arity, Class.initializer?, Class.method?, List.findSome?_eq_none_iff.mpr hl]
    rfl

/-! ## The result -/

/-- Each call of a class gives the new instance, and each call of an `init` the instance that it belongs to, also where it is
read as a property of the instance or of `super`. -/
structure History.GivesInstances (h : History) (r : Request) : Prop where
  /-- On any machine, whatever the `init` does. -/
  construction : ∀ n c args line m v m', Eval.call n (.klass c) args line m = .done v m' →
    c.Takes args.length ∧ v = .object (m.store.construct c).1
  body : ∀ n x c o b args m v m', h.Met r x → x.Binds c o b → c.name.text = "init" → h.Met r ⟨n, .runBody b args, m⟩ →
    runBody n b args m = .done v m' → v = .object o
  bound : ∀ n serial o b args line m v m', b.name.text = "init" → h.Met r ⟨n, .call (.bound ⟨serial, o, b⟩) args line, m⟩ →
    Eval.call n (.bound ⟨serial, o, b⟩) args line m = .done v m' → v = .object o
  property : ∀ n o name m v m', name.text = "init" → h.Met r ⟨n, .property (.object o) name, m⟩ →
    m.store.field? o "init" = none → property n (.object o) name m = .done v m' →
    ∃ f, o.cls.initializer? = some f ∧ f.Gives o v
  propertyCall : ∀ n e o name line args m m₁ v m', name.text = "init" →
    h.Met r ⟨n + 2, .expr (.call (.get e name) line args), m⟩ → evaluate n e m = .done (.object o) m₁ →
    m₁.store.field? o "init" = none → evaluate (n + 2) (.call (.get e name) line args) m = .done v m' → v = .object o
  super : ∀ n id line method m v m', method.text = "init" → h.Met r ⟨n, .superProperty id line method, m⟩ →
    superProperty n id line method m = .done v m' →
    ∃ c o f, superClass id line m = .done c m ∧ superReceiver id line m = .done o m ∧ c.initializer? = some f ∧ f.Gives o v
  superCall : ∀ n id line method line' args m v m', method.text = "init" →
    h.Met r ⟨n + 2, .expr (.call (.super id line method) line' args), m⟩ →
    evaluate (n + 2) (.call (.super id line method) line' args) m = .done v m' →
    ∃ o, superReceiver id line m = .done o m ∧ v = .object o
  /-- What `super` finds is the instance that the method was bound to. -/
  receiver : ∀ parent o b n id line method m, h.BindsMethod r parent o b →
    RunsIn (h.Met r) b ⟨n, .expr (.super id line method), m⟩ → superReceiver id line m = .done o m

/-- In every history of a session, construction and `init` give the instance. -/
theorem construction_gives_instance (hp : h.Possible) (ha : h.Allows r) : h.GivesInstances r where
  construction n c args line m v m' hv := by
    obtain ⟨n, f, rfl, hf, hl, hv⟩ := call_done hv
    obtain rfl := Option.some.inj hf
    exact ⟨hl ▸ c.takes_arity, apply_construct_done hv⟩
  body n x c o b args m v m' hx hb hname hmet hv := History.BindsInit.runBody hp ha ⟨x, c, hx, hb, hname⟩ hmet hv
  bound _ _ _ _ _ _ _ _ _ hname hmet hv := hp.bound_init ha hname hmet hv
  property _ _ _ _ _ _ hname hmet hfield hv := hp.property_init ha hname hmet hfield hv
  propertyCall n e o name line args m m₁ v m' hname hmet he hfield hv := by
    obtain ⟨u, m₂, hu, hv⟩ := Run.of_bind_done hv
    obtain ⟨us, m₃, hus, hv⟩ := Run.of_bind_done hv
    have hread := hu
    rw [evaluate, Run.bind_of_done he] at hread
    obtain ⟨f, -, hf⟩ := hp.property_init ha hname ((hmet.calls .callee).calls (.get he)) hfield hread
    exact hp.call_init ha hf (hmet.calls (.call hu hus)) hv
  super _ _ _ _ _ _ _ hname hmet hv := hp.super_init ha hname hmet hv
  superCall n id line method line' args m v m' hname hmet hv := by
    obtain ⟨u, m₂, hu, hv⟩ := Run.of_bind_done hv
    obtain ⟨us, m₃, hus, hv⟩ := Run.of_bind_done hv
    have hread : Eval.superProperty n id line method m = .done u m₂ := hu
    obtain ⟨c, o, f, -, ho, -, hf⟩ := hp.super_init ha hname ((hmet.calls .callee).calls .super) hread
    exact ⟨o, ho, hp.call_init ha hf (hmet.calls (.call hu hus)) hv⟩
  receiver _ _ _ _ _ _ _ _ hb hx := (hb.superFound hp ha hx).1

/-- An inherited `init` returns from a block in a loop, and another one is a getter. Both are called again, through a kept
method, a property and `super`. -/
theorem construction_with_inherited_init :
    let h := History.start (.ofBytes []) .unlimited 0
    let first := Request.run 80 "class A { init(x) { while (true) { { if (x > 0) return; } x = x + 1; } } }
      class B : A {} class C : B { init { return; } again() { return super.init(1); } }
      var b = B(0); var k = b.init; var c = C();"
    let second := Request.run 80 "print k(5) == b; print b.init(2) == b; print c.init == c; print c.again() == c;"
    ∃ a a', h.session.answer? first = some a ∧ a.session.answer? second = some a' ∧
      a'.session.written = "true\ntrue\ntrue\ntrue\n".toUTF8.toList ∧ (h.after first a).GivesInstances second := by
  intro h first second
  have hall : ((h.session.answer? first).bind fun a => a.session.answer? second).map (fun a => a.session.written) =
      some "true\ntrue\ntrue\ntrue\n".toUTF8.toList := by decide +kernel
  obtain ⟨a', hall, hw⟩ := Option.map_eq_some_iff.mp hall
  obtain ⟨a, ha, ha'⟩ := Option.bind_eq_some_iff.mp hall
  have hp : (h.after first a).Possible := .next .start trivial ha
  exact ⟨a, a', ha, ha', hw, construction_gives_instance hp trivial⟩

end Lox
