import Lox.Proofs.Session.Chained
import Lox.Proofs.Evaluation.Receivers
import Lox.Proofs.Evaluation.Walking

/-!
# `this` and `super` are fixed by where a method is declared

Whatever happens in a session, in the code of a method `this` is the instance that the method was bound to, and `super`
searches from the class that was the superclass when the class of the method was declared.
-/

namespace Lox

open Eval

/-! ## Nested environments -/

/-- Inside the environment lie only frames of blocks and routines, which declare neither `this` nor `super`. -/
inductive World.Inside (w : World) (outer : Env) : Env → Prop where
  | here : w.Inside outer outer
  | frame {f env opener} : w.Inside outer env → w.created (f :: env) opener →
    (∀ x ∈ opener.declares, x ≠ "this" ∧ x ≠ "super") → w.Inside outer (f :: env)

theorem World.Inside.split {w : World} {outer env : Env} (h : w.Inside outer env) {s : Store}
    (howned : ∀ env opener, w.created env opener → s.Owned env opener) {x : String} (hx : x = "this" ∨ x = "super") :
    ∃ inner, env = inner ++ outer ∧ ∀ f ∈ inner, ¬ (s.var? f x).isSome := by
  induction h with
  | here => exact ⟨[], rfl, nofun⟩
  | @frame f env opener _ hc hplain ih =>
    obtain ⟨inner, rfl, hfree⟩ := ih
    refine ⟨f :: inner, rfl, List.forall_mem_cons.mpr ⟨fun hs => ?_, hfree⟩⟩
    exact absurd hx (not_or.mpr (hplain x (howned _ _ hc f rfl x hs)))

/-- A scope that code opens for itself declares plain names. -/
theorem Activity.Ready.opener_plain {w : World} {Γ : Scopes} {m : Machine} {a : Activity} (h : a.Ready w Γ m) {opener : Opener}
    (ho : a.opener? = some opener) : ∀ x ∈ opener.declares, x ≠ "this" ∧ x ≠ "super" := by
  cases a with
  | stmt st =>
    cases st with
    | block body =>
      cases ho
      obtain ⟨-, -, hsee⟩ := h
      exact declaredBy_plain hsee.proper
    | _ => cases ho
  | runBody c args =>
    cases ho
    obtain ⟨-, ⟨_, hc⟩, -, -⟩ := h
    exact Routine.Proper.declares_plain hc.sees.proper
  | _ => cases ho

variable {h : History} {r : Request} {x : Moment} {b : Closure}

/-- All code of a method and of the functions nested in it runs inside the environment of the method. -/
theorem RunsIn.inside (hp : h.Possible) (ha : h.Allows r) (hx : RunsIn (h.Met r) b x) :
    h.Met r x ∧ (h.worldWith r).Inside b.env x.scope := by
  induction hx with
  | body hmet => exact ⟨hmet, .here⟩
  | nested _ hmakes hmet ih =>
    refine ⟨hmet, ?_⟩
    have hin := ih.2
    rw [← hmakes.env] at hin
    exact hin
  | @code x y _ hc hcode ih =>
    obtain ⟨hmet, hin⟩ := ih
    refine ⟨hmet.calls hc, ?_⟩
    rw [Moment.scope_of_code hcode]
    obtain ⟨hscope, henv⟩ | ⟨f, opener, ho, hcreates, henv⟩ := hc.scope
    · rw [henv, ← hscope]
      exact hin
    · obtain ⟨w, Γ, hsaw⟩ := hp.saw_met ha hmet
      rw [henv]
      exact .frame hin (hmet.created hcreates) (hsaw.ready.opener_plain ho)

/-! ## Methods -/

/-- A method that was declared in a class with that superclass was bound to the instance. -/
def History.BindsMethod (h : History) (r : Request) (parent : Option Class) (o : Instance) (b : Closure) : Prop :=
  ∃ x c name f y, h.Met r x ∧ x.Declares parent c ∧ c.layer.methods.get? name = some f ∧ h.Met r y ∧ y.Binds f.closure o b

/-- In the code of a bound method the nearest frame of `this` is that of the receiver, around it the environment of the
method, which tells the superclass. -/
theorem History.BindsMethod.environment (hp : h.Possible) (ha : h.Allows r) {parent : Option Class} {o : Instance}
    (hb : h.BindsMethod r parent o b) (hx : RunsIn (h.Met r) b x) (hcode : x.activity.IsCode) {w : World} {Γ Γ' : Scopes}
    (hsaw : (h.worldWith r).Saw x w Γ') (hmodels : w.Models x.machine.store x.machine.env Γ) (ht : Γ.Tidy) {d : Nat}
    (hd : Γ.depth? "this" = some d) : ∃ inner f outer, x.machine.env = inner ++ f :: outer ∧ inner.length = d ∧
      x.machine.store.var? f "this" = some (.object o) ∧ ∃ m, h.Passes r m ∧ m.store.Inherits outer parent := by
  obtain ⟨y, c, name, g, z, hy, hdeclares, hg, hz, hbinds⟩ := hb
  obtain ⟨hmet, hin⟩ := hx.inside hp ha
  rw [Moment.scope_of_code hcode] at hin
  have howned : ∀ env opener, (h.worldWith r).created env opener → x.machine.store.Owned env opener :=
    fun _ _ hc => hp.owned_passed hmet.passes hc
  obtain ⟨f, m, henv, hm, hv⟩ := hbinds.receiver
  obtain ⟨inner, hsplit, hfree⟩ := hin.split howned (.inl rfl)
  rw [henv] at hsplit
  -- the frame of the receiver still has the instance
  have hlt : f < x.machine.store.frames.size := hmodels.lt f (by rw [hsplit]; simp)
  have hthis : x.machine.store.var? f "this" = some (.object o) :=
    (hp.settled ha ⟨z, hz, hm⟩ hmet.passes (Store.lt_of_var? hv) hlt (.inl rfl)).trans hv
  -- it is the nearest with a `this`, so the depth counts just the frames inside it
  have hindex := hmodels.findIdx? (.inl rfl) (fun _ _ hc => howned _ _ (hsaw.within.created _ _ hc)) ht hd
  have hinner : inner.findIdx? (fun f => (x.machine.store.var? f "this").isSome) = none :=
    List.findIdx?_eq_none_iff.mpr fun f hf => by simpa using hfree f hf
  rw [hsplit, List.findIdx?_append, hinner, List.findIdx?_cons, hthis] at hindex
  obtain ⟨w', Γ'', hsaw'⟩ := hp.saw_met ha hy
  obtain ⟨env, m', hm', hinherits, hmethods⟩ := hdeclares.inherits hsaw'.ready
  refine ⟨inner, f, g.closure.env, hsplit, by simpa using hindex, hthis, m', ⟨y, hy, hm'⟩, ?_⟩
  rw [hmethods name g hg]
  exact hinherits

/-! ## Reading `this` and `super` -/

namespace Machine

variable {m : Machine} {inner outer : Env} {f : FrameId}

theorem readAt_append (s : Store) (x : String) : s.readAt (inner ++ f :: outer) inner.length x = s.var? f x :=
  World.readAt_eq (by simp) x

end Machine

namespace History

variable {parent : Option Class} {o : Instance} {n : Nat} {id : NodeId} {line : Nat} {m : Machine}

theorem BindsMethod.this (hp : h.Possible) (ha : h.Allows r) (hb : h.BindsMethod r parent o b)
    (hx : RunsIn (h.Met r) b ⟨n + 1, .expr (.this id line), m⟩) :
    evaluate (n + 1) (.this id line) m = .done (.object o) m := by
  obtain ⟨w, Γ, hsaw⟩ := hp.saw_met ha (hx.inside hp ha).1
  obtain ⟨hat, hsee⟩ := hsaw.ready
  have ho : w.known ⟨id, "this", Γ⟩ := hsee.known _ (List.mem_singleton.mpr rfl)
  obtain ⟨d, hd⟩ := (w.placed _ ho).this rfl
  obtain ⟨inner, f, outer, henv, rfl, hthis, -⟩ := hb.environment hp ha hx trivial hsaw hat.models
    (Past.tidy (hsaw.within.known _ ho)) hd
  have henv : m.env = inner ++ f :: outer := henv
  refine Eval.lookUp_of_some ?_
  simp only [Machine.lookUp?, (hat.ready.table _ ho).trans hd]
  rw [henv, Machine.readAt_append]
  exact hthis

/-- The code of a method finds its receiver and the superclass of the class that declared it. -/
theorem BindsMethod.superFound (hp : h.Possible) (ha : h.Allows r) (hb : h.BindsMethod r parent o b) {method : Name}
    (hx : RunsIn (h.Met r) b ⟨n, .expr (.super id line method), m⟩) :
    superReceiver id line m = .done o m ∧ ∃ k, parent = some k ∧ superClass id line m = .done k m := by
  have hmet := (hx.inside hp ha).1
  obtain ⟨w, Γ, hsaw⟩ := hp.saw_met ha hmet
  obtain ⟨hat, hsee⟩ := hsaw.ready
  have ho : w.known ⟨id, "super", Γ⟩ := hsee.known _ (List.mem_singleton.mpr rfl)
  have ht : Γ.Tidy := Past.tidy (hsaw.within.known _ ho)
  obtain ⟨d, hd, hd'⟩ := (w.placed _ ho).super rfl
  obtain ⟨inner, f, outer, henv, rfl, hthis, m', hm', hinherits⟩ := hb.environment hp ha hx trivial hsaw hat.models ht hd
  have henv : m.env = inner ++ f :: outer := henv
  -- the frame of `super` is the next one
  obtain ⟨⟨sc, hsc, hn⟩, -⟩ := Occurrence.depth?_eq_some_iff.mp hd'
  obtain ⟨g, outer', hdrop, -, hactive⟩ := hat.models.frame hsc
  have houter : outer = g :: outer' := by
    have hdrop : m.env.drop (inner.length + 1) = g :: outer' := hdrop
    rw [henv] at hdrop
    simpa using hdrop
  subst houter
  have howned : ∀ {m}, h.Passes r m → m.store.Owned (g :: outer') sc.opener := fun hm =>
    hp.owned_passed hm (hsaw.within.created _ _ hactive.created)
  obtain ⟨k', hk'⟩ := hactive.parent hn
  have hdeclares : sc.opener.declares = ["super"] :=
    ((ht sc (List.mem_of_getElem? hsc) "super" (.inr rfl)).1 (howned hmet.passes g rfl "super" (by rw [hk']; rfl))).2
  cases parent with
  | none =>
    -- that frame has the name of the class, and so is none of `super`
    obtain ⟨g', hg', y, hy, hv⟩ := hinherits
    cases hg'
    have hmem := howned hm' g rfl y hv
    rw [hdeclares] at hmem
    exact absurd (List.mem_singleton.mp hmem) hy
  | some k =>
    obtain ⟨_, _, heq, hv⟩ := hinherits
    cases heq
    have hsuper : m.store.var? g "super" = some (.klass k) :=
      (hp.settled ha hm' hmet.passes (Store.lt_of_var? hv) hactive.lt (.inr rfl)).trans hv
    have htable : m.bindings.get? id = some (inner.length + 1) := (hat.ready.table _ ho).trans hd'
    have hclass : superClass id line m = .done k m := by
      have hread : m.store.readAt m.env (inner.length + 1) "super" = some (.klass k) := by
        rw [henv, ← hsuper]
        exact World.readAt_eq (by simp) "super"
      simp only [superClass, htable, Option.bind_some, hread]
    have hreceiver : superReceiver id line m = .done o m := by
      have hread : m.store.readAt m.env inner.length "this" = some (.object o) := by
        rw [henv, Machine.readAt_append]
        exact hthis
      simp only [superReceiver, htable, hread]
    exact ⟨hreceiver, k, rfl, hclass⟩

theorem BindsMethod.super (hp : h.Possible) (ha : h.Allows r) (hb : h.BindsMethod r parent o b) {method : Name}
    (hx : RunsIn (h.Met r) b ⟨n + 2, .expr (.super id line method), m⟩) : ∃ k, parent = some k ∧
      evaluate (n + 2) (.super id line method) m = (match k.method? method.text with
        | some f => methodOf n f.closure o method.line
        | none => fail method.line (.undefinedProperty method.text)) m := by
  obtain ⟨hreceiver, k, hk, hclass⟩ := hb.superFound hp ha hx
  refine ⟨k, hk, ?_⟩
  rw [evaluate, superProperty]
  exact (Run.bind_of_done hclass).trans (Run.bind_of_done hreceiver)

/-- In the code of methods, and of the functions nested in them, `this` and `super` are as stated. -/
structure FixesReceivers (h : History) (r : Request) : Prop where
  this : ∀ parent o b n id line m, h.BindsMethod r parent o b →
    RunsIn (h.Met r) b ⟨n + 1, .expr (.this id line), m⟩ → evaluate (n + 1) (.this id line) m = .done (.object o) m
  super : ∀ parent o b n id line method m, h.BindsMethod r parent o b →
    RunsIn (h.Met r) b ⟨n + 2, .expr (.super id line method), m⟩ → ∃ k, parent = some k ∧
      evaluate (n + 2) (.super id line method) m = (match k.method? method.text with
        | some f => methodOf n f.closure o method.line
        | none => fail method.line (.undefinedProperty method.text)) m

end History

/-- In every history of a session, `this` and `super` mean what they meant where the method was declared. -/
theorem this_and_super_are_fixed (hp : h.Possible) (ha : h.Allows r) : h.FixesReceivers r where
  this _ _ _ _ _ _ _ hb hx := hb.this hp ha hx
  super _ _ _ _ _ _ _ _ hb hx := hb.super hp ha hx

/-- A function that a method of a middle class has given is called after the names of all classes are gone. -/
theorem super_of_kept_function :
    let h := History.start (.ofBytes []) .unlimited 0
    let first := Request.run 60 "class A { m() { return this; } } class B : A { m() { return fun(): super.m(); } }
      class C : B {} var c = C(); var k = c.m(); A = nil; B = nil; C = nil;"
    let second := Request.run 60 "print k() == c;"
    ∃ a a', h.session.answer? first = some a ∧ a.session.answer? second = some a' ∧ a'.session.written = "true\n".toUTF8.toList ∧
      (h.after first a).FixesReceivers second := by
  intro h first second
  have hall : ((h.session.answer? first).bind fun a => a.session.answer? second).map (fun a => a.session.written) =
      some "true\n".toUTF8.toList := by decide +kernel
  obtain ⟨a', hall, hw⟩ := Option.map_eq_some_iff.mp hall
  obtain ⟨a, ha, ha'⟩ := Option.bind_eq_some_iff.mp hall
  have hp : (h.after first a).Possible := .next .start trivial ha
  exact ⟨a, a', ha, ha', hw, this_and_super_are_fixed hp trivial⟩

end Lox
