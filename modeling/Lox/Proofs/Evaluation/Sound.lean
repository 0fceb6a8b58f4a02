import Lox.Proofs.Evaluation.Code
import Lox.Proofs.Evaluation.Objects

/-!
# Expressions and calls end as stated

What a ready moment turns to is ready in its turn, and what it ends in is as stated by
`Activity.After`.
-/

namespace Lox

/-! ## Steps -/

/-- A ready moment ends as stated, if the world covers what it creates. -/
def Moment.Sound (w : World) (x : Moment) : Prop :=
  ∀ Γ, w.Covers x → x.activity.Ready w Γ x.machine → w.Ends x.machine x.Blames (x.activity.After w Γ) x.outcome

/-- All ready moments with this fuel end as stated. -/
def World.SoundWith (w : World) (n : Nat) : Prop := ∀ a m, Moment.Sound w ⟨n, a, m⟩

namespace World

variable {w : World} {n : Nat} {m : Machine} {Γ : Scopes} {x : Moment}

section
variable {β : Type} {Q : β → Machine → Prop}

theorem Ends.call (ih : w.SoundWith n) (hcov : w.Covers x) (a : Activity) {next : a.Result → Eval β}
    (hc : x.Calls ⟨n, a, m⟩) (hr : a.Ready w Γ m)
    (hn : ∀ r m', a.run n m = .done r m' → w.Continues m m' → a.After w Γ r m' → w.Ends m' x.Blames Q (next r m')) :
    w.Ends m x.Blames Q ((a.run n >>= next) m) :=
  Ends.bind ((ih a m Γ (hcov.calls hc) hr).imp (fun _ he => he.calls hc) fun _ _ _ _ ha => ha) hn

theorem Ends.last (ih : w.SoundWith n) (hcov : w.Covers x) (a : Activity) {Q : a.Result → Machine → Prop}
    (hc : x.Calls ⟨n, a, m⟩) (hr : a.Ready w Γ m) (hq : ∀ r m', w.Continues m m' → a.After w Γ r m' → Q r m') :
    w.Ends m x.Blames Q (a.run n m) :=
  (ih a m Γ (hcov.calls hc) hr).imp (fun _ he => he.calls hc) fun r m' _ hcont ha => hq r m' hcont ha

end

theorem Ends.operator (hm : w.MachineReady m) {line : Nat} {o : Except RuntimeFault Value} (h : OperatorResult o) :
    w.Ends m x.Blames (fun v m' => w.ValueReady m'.store v) (Eval.ofExcept line o m) := by
  cases o with
  | ok v => exact Ends.pure hm (Value.IsPlain.ready h)
  | error fault => exact Ends.fail hm (.other h.1 fun _ text he => h.2 text (by cases he; rfl))

theorem Ends.refuse (hm : w.MachineReady m) {α : Type} {Q : α → Machine → Prop} {line : Nat} {fault : RuntimeFault}
    (hi : fault.isInternal = false) (hu : ∀ text, fault ≠ .naming (.undefined text)) :
    w.Ends m x.Blames Q (Eval.fail line fault m) :=
  Ends.fail hm (.other hi fun _ text he => hu text (by cases he; rfl))

/-! ## Expressions -/

theorem sound_expr (ih : w.SoundWith n) (e : Expr) (m : Machine) : Moment.Sound w ⟨n + 1, .expr e, m⟩ := by
  intro Γ hcov h
  obtain ⟨hat, hsee⟩ := h
  change w.Ends m _ _ (Eval.evaluate (n + 1) e m)
  cases e with
  | literal v =>
    rw [Eval.evaluate]
    exact Ends.pure hat.ready (by cases v <;> trivial)
  | unary op line e =>
    rw [Eval.evaluate]
    refine Ends.call ih hcov (.expr e) .unary ⟨hat, hsee.operand⟩ fun v m₁ _ hc _ => ?_
    exact Ends.operator hc.ready (Mark.applyUnary_result hsee.proper.1 v)
  | binary op line l r =>
    rw [Eval.evaluate]
    refine Ends.call ih hcov (.expr l) .binaryLeft ⟨hat, hsee.binaryLeft⟩ fun v m₁ hv hc _ => ?_
    refine Ends.call ih hcov (.expr r) (.binaryRight hv) ⟨hat.next hc, hsee.binaryRight⟩ fun u m₂ _ hc _ => ?_
    exact Ends.operator hc.ready (Mark.applyBinary_result hsee.proper.1 v u)
  | logical op line l r =>
    rw [Eval.evaluate]
    refine Ends.call ih hcov (.expr l) .logicalLeft ⟨hat, hsee.logicalLeft⟩ fun v m₁ hv hc hready => ?_
    split
    · exact Ends.pure hc.ready hready
    · rename_i hs
      exact Ends.last ih hcov (.expr r) (.logicalRight hv (by simpa using hs)) ⟨hat.next hc, hsee.logicalRight⟩
        fun _ _ _ h => h
  | group e =>
    rw [Eval.evaluate]
    exact Ends.last ih hcov (.expr e) .group ⟨hat, hsee⟩ fun _ _ _ h => h
  | var id name =>
    rw [Eval.evaluate]
    have hn : name.IsPlain := hsee.proper
    exact Ends.lookUp hat.ready fun hv => .access .var hn.1 hv
  | assign id name e =>
    rw [Eval.evaluate]
    have hn : name.IsPlain := hsee.proper.1
    refine Ends.call ih hcov (.expr e) .assigned ⟨hat, hsee.assigned⟩ fun v m₁ hv hc hready => ?_
    have ha : Moment.Accesses ⟨n + 1, .expr (.assign id name e), m⟩ id name m₁ := .assign hv
    refine (Ends.assign hc.ready hn hready fun hu => .access ha hn.1 hu).bind fun _ m₂ _ hc₂ _ => ?_
    exact Ends.pure hc₂.ready (hready.grow hc₂.grows)
  | call f line args =>
    rw [Eval.evaluate]
    refine Ends.call ih hcov (.expr f) .callee ⟨hat, hsee.callee⟩ fun v m₁ hv hc hready => ?_
    refine Ends.call ih hcov (.exprs args) (.arguments hv) ⟨hat.next hc, hsee.arguments⟩ fun vs m₂ hvs hc₂ hargs => ?_
    exact Ends.last ih hcov (.call v vs line) (.call hv hvs) (Γ := Γ) ⟨hc₂.ready, hready.grow hc₂.grows, hargs⟩ fun _ _ _ h => h
  | lambda line r =>
    rw [Eval.evaluate]
    refine Ends.bind (Q := fun c m' => m' = m ∧ c = ⟨⟨"lambda", line⟩, r, false, false, m.env⟩)
      ⟨.refl hat.ready, rfl, rfl⟩ ?_
    intro c _ _ _ h
    obtain ⟨rfl, rfl⟩ := h
    refine (Ends.newFunction hat.ready _).bind fun f m₁ _ hc hf => Ends.pure hc.ready ?_
    change w.Callable m₁.store f.closure
    rw [hf]
    exact ⟨Γ, hat.models.grow hc.grows, hsee, nofun, nofun⟩
  | get e name =>
    rw [Eval.evaluate]
    refine Ends.call ih hcov (.expr e) .getObject ⟨hat, hsee⟩ fun v m₁ hv hc hready => ?_
    exact Ends.last ih hcov (.property v name) (.get hv) (Γ := Γ) ⟨hc.ready, hready⟩ fun _ _ _ h => h
  | set e name value =>
    rw [Eval.evaluate]
    refine Ends.call ih hcov (.expr e) .setObject ⟨hat, hsee.setObject⟩ fun v m₁ hv hc hready => ?_
    exact Ends.last ih hcov (.setProperty v name value) (.set hv) ⟨hat.next hc, hsee.setValue, hready⟩ fun _ _ _ h => h
  | this id line =>
    rw [Eval.evaluate]
    have ho : w.known ⟨id, "this", Γ⟩ := hsee.known _ (List.mem_singleton.mpr rfl)
    exact Ends.lookUp hat.ready fun hv => absurd hv (hat.this ho)
  | super id line method =>
    rw [Eval.evaluate]
    have ho : w.known ⟨id, "super", Γ⟩ := hsee.known _ (List.mem_singleton.mpr rfl)
    exact Ends.last ih hcov (.superProperty id line method) .super ⟨hat, ho⟩ fun _ _ _ h => h

theorem sound_exprs (ih : w.SoundWith n) (es : List Expr) (m : Machine) : Moment.Sound w ⟨n + 1, .exprs es, m⟩ := by
  intro Γ hcov h
  obtain ⟨hat, hsee⟩ := h
  change w.Ends m _ _ (Eval.evaluateAll (n + 1) es m)
  cases es with
  | nil =>
    rw [Eval.evaluateAll]
    exact Ends.pure hat.ready nofun
  | cons e es =>
    rw [Eval.evaluateAll]
    refine Ends.call ih hcov (.expr e) .head ⟨hat, hsee.head⟩ fun v m₁ hv hc hready => ?_
    refine Ends.call ih hcov (.exprs es) (.tail hv) ⟨hat.next hc, hsee.tail⟩ fun vs m₂ _ hc₂ hvs => Ends.pure hc₂.ready ?_
    intro u hu
    cases hu with
    | head => exact hready.grow hc₂.grows
    | tail _ hu => exact hvs u hu

theorem sound_setProperty (ih : w.SoundWith n) (object : Value) (name : Name) (e : Expr) (m : Machine) :
    Moment.Sound w ⟨n + 1, .setProperty object name e, m⟩ := by
  intro Γ hcov h
  obtain ⟨hat, hsee, _⟩ := h
  change w.Ends m _ _ (Eval.setProperty (n + 1) object name e m)
  cases object with
  | object i =>
    rw [Eval.setProperty]
    refine Ends.call ih hcov (.expr e) .fieldValue ⟨hat, hsee⟩ fun v m₁ _ hc hready => ?_
    exact (Ends.setField hc.ready hready).bind fun _ m₂ _ hc₂ _ => Ends.pure hc₂.ready (hready.grow hc₂.grows)
  | _ =>
    rw [Eval.setProperty]
    · exact Ends.refuse hat.ready rfl nofun
    · nofun

/-! ## Properties -/

theorem ClassReady.method {s : Store} {c : Class} (h : w.ClassReady s c) {x : String} {f : FunctionObject}
    (hf : c.method? x = some f) : w.Bindable s f.closure := by
  obtain ⟨layer, hl, hf⟩ := List.exists_of_findSome?_eq_some hf
  exact (h layer hl).methods x f hf

theorem ClassReady.static {s : Store} {c : Class} (h : w.ClassReady s c) {x : String} {f : FunctionObject}
    (hf : c.static? x = some f) : w.Callable s f.closure := by
  obtain ⟨layer, hl, hf⟩ := List.exists_of_findSome?_eq_some hf
  exact (h layer hl).statics x f hf

theorem CallReady.getter (hm : w.MachineReady m) {c : Closure} (hc : w.Callable m.store c) (hg : c.isGetter = true) :
    w.CallReady m c [] := by
  obtain ⟨Γ, h⟩ := hc
  refine ⟨hm, ⟨Γ, h⟩, ?_, nofun⟩
  rw [Closure.arity, Routine.arity, h.getter hg]
  rfl

theorem sound_property (ih : w.SoundWith n) (object : Value) (name : Name) (m : Machine) :
    Moment.Sound w ⟨n + 1, .property object name, m⟩ := by
  intro Γ hcov h
  obtain ⟨hm, hready⟩ := h
  change w.Ends m _ _ (Eval.property (n + 1) object name m)
  cases object with
  | object i =>
    rw [Eval.property]
    refine Ends.bind (Q := fun v m' => m' = m ∧ v = m.store.field? i name.text) ⟨.refl hm, rfl, rfl⟩ ?_
    intro v m _ _ h
    obtain ⟨rfl, rfl⟩ := h
    cases hv : m.store.field? i name.text with
    | some v => exact Ends.pure hm (hm.store.fields i _ v hv)
    | none =>
      cases hf : i.cls.method? name.text with
      | none => exact Ends.refuse hm rfl nofun
      | some f =>
        have hi : w.ClassReady m.store i.cls := hready
        exact Ends.last ih hcov (.methodOf f.closure i name.line) (.method hv hf) (Γ := Γ) ⟨hm, hi.method hf, hi⟩
          fun _ _ _ h => h
  | klass c =>
    rw [Eval.property]
    have hcls : w.ClassReady m.store c := hready
    cases hf : c.static? name.text with
    | none => exact Ends.refuse hm rfl nofun
    | some f =>
      dsimp only
      split
      · rename_i hg
        exact Ends.last ih hcov (.enter f.closure [] name.line) (.staticGetter hf hg) (Γ := Γ)
          (CallReady.getter hm (hcls.static hf) hg) fun _ _ _ h => h
      · exact Ends.pure hm (hcls.static hf)
  | _ =>
    rw [Eval.property]
    · exact Ends.refuse hm rfl nofun
    · nofun
    · nofun

theorem sound_superProperty (ih : w.SoundWith n) (id : NodeId) (line : Nat) (method : Name) (m : Machine) :
    Moment.Sound w ⟨n + 1, .superProperty id line method, m⟩ := by
  intro Γ hcov h
  obtain ⟨hat, ho⟩ := h
  change w.Ends m _ _ (Eval.superProperty (n + 1) id line method m)
  rw [Eval.superProperty]
  refine (Ends.superClass hat ho).bind fun c m₁ hc _ ⟨hm, hcls⟩ => ?_
  subst hm
  refine (Ends.superReceiver hat ho).bind fun i m₁ hi _ ⟨hm, hicls⟩ => ?_
  subst hm
  cases hf : c.method? method.text with
  | none => exact Ends.refuse hat.ready rfl nofun
  | some f =>
    exact Ends.last ih hcov (.methodOf f.closure i method.line) (.superMethod hc hi hf) (Γ := Γ)
      ⟨hat.ready, hcls.method hf, hicls⟩ fun _ _ _ h => h

theorem sound_methodOf (ih : w.SoundWith n) (c : Closure) (i : Instance) (line : Nat) (m : Machine) :
    Moment.Sound w ⟨n + 1, .methodOf c i line, m⟩ := by
  intro Γ hcov h
  obtain ⟨hm, ⟨Γ', decl, hb⟩, hi⟩ := h
  change w.Ends m _ _ (Eval.methodOf (n + 1) c i line m)
  rw [Eval.methodOf]
  refine (Ends.bindThis hm hb hi fun _ _ h => hcov.creates (.bound h hb.declares)).bind fun bound m₁ hbound hc ⟨hcall, _⟩ => ?_
  split
  · rename_i hg
    exact Ends.last ih hcov (.enter bound [] line) (.getter hbound hg) (Γ := Γ) (CallReady.getter hc.ready hcall hg)
      fun _ _ _ h => h
  · refine (Ends.freshSerial hc.ready).bind fun serial m₂ _ hc₂ _ => Ends.pure hc₂.ready ?_
    exact ⟨(hi.grow hc.grows).grow hc₂.grows, hcall.grow hc₂.grows⟩

/-! ## Calls -/

theorem ValueReady.callee {f : Callee} : ∀ {v : Value}, w.ValueReady m.store v → v.callee? = some f → w.CalleeReady m f
  | .native _, _, rfl => trivial
  | .function _, h, rfl => h
  | .klass _, h, rfl => h
  | .bound _, h, rfl => h.2

/-- The bound initializer of a class takes the arguments of the class. -/
theorem CallReady.initializer (hm : w.MachineReady m) {c : Class} {f : FunctionObject} (hf : c.initializer? = some f)
    {bound : Closure} (hcall : w.Callable m.store bound) (hr : bound.routine = f.closure.routine) {args : List Value}
    (hl : args.length = (Callee.construct c).arity) (hargs : w.ValuesReady m.store args) : w.CallReady m bound args := by
  refine ⟨hm, hcall, ?_, hargs⟩
  rw [hl, Closure.arity, hr]
  simp [Callee.arity, Class.arity, hf, Closure.arity]

theorem sound_call (ih : w.SoundWith n) (v : Value) (args : List Value) (line : Nat) (m : Machine) :
    Moment.Sound w ⟨n + 1, .call v args line, m⟩ := by
  intro Γ hcov h
  obtain ⟨hm, hready, hargs⟩ := h
  change w.Ends m _ _ (Eval.call (n + 1) v args line m)
  rw [Eval.call]
  cases hf : v.callee? with
  | none => exact Ends.refuse hm rfl nofun
  | some f =>
    dsimp only
    split
    · rename_i hl
      exact Ends.last ih hcov (.apply f args line) (.apply hf hl) (Γ := Γ) ⟨hm, hready.callee hf, hl, hargs⟩
        fun _ _ _ h => h
    · exact Ends.refuse hm rfl nofun

theorem sound_apply (ih : w.SoundWith n) (f : Callee) (args : List Value) (line : Nat) (m : Machine) :
    Moment.Sound w ⟨n + 1, .apply f args line, m⟩ := by
  intro Γ hcov h
  obtain ⟨hm, hcallee, hl, hargs⟩ := h
  change w.Ends m _ _ (Eval.apply (n + 1) f args line m)
  cases f with
  | native fn =>
    rw [Eval.apply]
    exact Ends.callNative hm (.other rfl nofun) fun _ => .other rfl nofun
  | closure c =>
    rw [Eval.apply]
    exact Ends.last ih hcov (.enter c args line) .closure (Γ := Γ) ⟨hm, hcallee, hl, hargs⟩ fun _ _ _ h => h
  | construct c =>
    rw [Eval.apply]
    have hcls : w.ClassReady m.store c := hcallee
    refine (Ends.newInstance hm c).bind fun i m₁ hinst hc hi => ?_
    have hcls₁ : w.ClassReady m₁.store i.cls := by rw [hi]; exact hcls.grow hc.grows
    cases hf : c.initializer? with
    | none => exact Ends.pure hc.ready hcls₁
    | some f =>
      obtain ⟨Γ', decl, hb⟩ := (hcls.method hf).grow hc.grows
      refine (Ends.bindThis hc.ready hb hcls₁ fun _ _ h => hcov.creates (.initializer hinst hf h hb.declares)).bind
        fun bound m₂ hbound hc₂ ⟨hcall, hr⟩ => ?_
      have hargs₂ : w.ValuesReady m₂.store args := fun v hv => (hargs v hv).grow (hc.grows.trans hc₂.grows)
      refine Ends.call ih hcov (.enter bound args line) (.initializer hinst hf hbound) (Γ := Γ)
        (.initializer hc₂.ready hf hcall hr hl hargs₂) fun _ m₃ _ hc₃ _ => ?_
      exact Ends.pure hc₃.ready (hcls₁.grow (hc₂.grows.trans hc₃.grows))

end World

end Lox
