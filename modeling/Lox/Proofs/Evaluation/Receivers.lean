import Lox.Proofs.Evaluation.Ordered
import Lox.Proofs.Evaluation.Implicit
import Lox.Proofs.Evaluation.Reached

/-!
# Methods, their receivers and their superclass

When a class is declared, when a method of it is bound to an instance, and what runs in such a method: its body, and the
functions that are nested in it, whenever they are called.
-/

namespace Lox

open Eval

namespace Activity

/-- Work on a piece of code, in the environment that is in scope. -/
def IsCode : Activity → Prop
  | expr _ => True
  | exprs _ => True
  | setProperty _ _ _ => True
  | superProperty _ _ _ => True
  | stmt _ => True
  | superclass _ _ => True
  | stmts _ => True
  | loop _ _ => True
  | _ => False

/-- What opens the scope that the work makes for its own code. -/
def opener? : Activity → Option Opener
  | stmt (.block sts) => some (.block sts)
  | runBody c _ => some (.routine c.routine)
  | _ => none

end Activity

namespace Moment

/-- A declaration makes that class, with that superclass. -/
inductive Declares : Moment → Option Class → Class → Prop where
  | classDecl {n m name ref ms ss parent m₁ m₂ c m₃} : evaluateSuperclass n ref m = .done parent m₁ →
    define name .nil m₁ = .done () m₂ → newClass name parent ms ss m₂ = .done c m₃ →
    Declares ⟨n + 1, .stmt (.classDecl name ref ms ss), m⟩ parent c

/-- The method is bound to the instance, where a property of it or of `super` is read, or where it is constructed. -/
inductive Binds : Moment → Closure → Instance → Closure → Prop where
  | access {n c i line m bound m'} : bindThis c i m = .done bound m' → Binds ⟨n + 1, .methodOf c i line, m⟩ c i bound
  | construction {n c args line m i m' f bound m''} : newInstance c m = .done i m' → c.initializer? = some f →
    bindThis f.closure i m' = .done bound m'' → Binds ⟨n + 1, .apply (.construct c) args line, m⟩ f.closure i bound

/-- The function is made here: its code is nested in the code that runs. -/
inductive MakesFunction : Moment → Closure → Prop where
  | lambda {n line routine m c m'} : closureHere ⟨"lambda", line⟩ routine m = .done c m' →
    MakesFunction ⟨n + 1, .expr (.lambda line routine), m⟩ c
  | funDecl {n name routine m c m'} : closureHere name routine m = .done c m' →
    MakesFunction ⟨n + 1, .stmt (.funDecl name routine), m⟩ c

/-- The environment around the code of the work. -/
def scope (x : Moment) : Env :=
  match x.activity with
  | .runBody c _ => c.env
  | _ => x.machine.env

end Moment

/-- Among the moments that are met, those of the body of the closure and of the functions nested in it, but not of the methods
of classes that are nested in it. -/
inductive RunsIn (met : Moment → Prop) (b : Closure) : Moment → Prop where
  | body {n args m} : met ⟨n, .runBody b args, m⟩ → RunsIn met b ⟨n, .runBody b args, m⟩
  | code {x y} : RunsIn met b x → x.Calls y → y.activity.IsCode → RunsIn met b y
  | nested {x c n args m} : RunsIn met b x → x.MakesFunction c → met ⟨n, .runBody c args, m⟩ →
    RunsIn met b ⟨n, .runBody c args, m⟩

namespace Moment

variable {x y : Moment} {m m' : Machine} {n : Nat} {b c : Closure} {o : Instance}

/-! ## Environments of nested code -/

theorem scope_of_code (h : x.activity.IsCode) : x.scope = x.machine.env := by
  obtain ⟨n, a, m⟩ := x
  cases a with
  | runBody => exact h.elim
  | _ => rfl

theorem MakesFunction.env (h : x.MakesFunction c) : c.env = x.scope := by
  cases h with
  | lambda hc => cases hc; rfl
  | funDecl hc => cases hc; rfl

/-- What is turned to runs in the same environment, or in that of a scope that is opened for it. -/
theorem Calls.scope (hc : x.Calls y) : x.scope = x.machine.env ∧ y.machine.env = x.machine.env ∨
    ∃ f opener, x.activity.opener? = some opener ∧ x.Creates (f :: x.scope) opener ∧ y.machine.env = f :: x.scope := by
  cases hc with
  | binaryRight hv => exact .inl ⟨rfl, env_of_done (a := .expr _) hv⟩
  | logicalRight hv _ => exact .inl ⟨rfl, env_of_done (a := .expr _) hv⟩
  | arguments hv => exact .inl ⟨rfl, env_of_done (a := .expr _) hv⟩
  | call hv hvs => exact .inl ⟨rfl, (env_of_done (a := .exprs _) hvs).trans (env_of_done (a := .expr _) hv)⟩
  | get hv => exact .inl ⟨rfl, env_of_done (a := .expr _) hv⟩
  | set hv => exact .inl ⟨rfl, env_of_done (a := .expr _) hv⟩
  | tail hv => exact .inl ⟨rfl, env_of_done (a := .expr _) hv⟩
  | thenBranch hv _ => exact .inl ⟨rfl, env_of_done (a := .expr _) hv⟩
  | elseBranch hv _ => exact .inl ⟨rfl, env_of_done (a := .expr _) hv⟩
  | loopBody hv _ => exact .inl ⟨rfl, env_of_done (a := .expr _) hv⟩
  | rest hv => exact .inl ⟨rfl, env_of_done (a := .stmt _) hv⟩
  | again hv _ hflow => exact .inl ⟨rfl, (env_of_done (a := .stmt _) hflow).trans (env_of_done (a := .expr _) hv)⟩
  | getter hbound _ => cases hbound; exact .inl ⟨rfl, rfl⟩
  | initializer hi _ hbound => cases hi; cases hbound; exact .inl ⟨rfl, rfl⟩
  | block hframe => cases hframe; exact .inr ⟨_, _, rfl, .block rfl, rfl⟩
  | body hframe => cases hframe; exact .inr ⟨_, _, rfl, .body rfl, rfl⟩
  | _ => exact .inl ⟨rfl, rfl⟩

end Moment

/-! ## Bound methods -/

theorem Eval.bindThis_done {c b : Closure} {o : Instance} {m m' : Machine} (h : bindThis c o m = .done b m') :
    ∃ f, b.env = f :: c.env ∧ m'.store.var? f "this" = some (.object o) := by
  cases h
  exact ⟨m.store.frames.size, rfl, (m.store.var?_extend _ c.env _ _).trans (if_pos rfl)⟩

namespace Moment

variable {x : Moment} {b c : Closure} {o : Instance}

/-- A bound method sees its receiver in a frame of its own, around that of the method. -/
theorem Binds.receiver (h : x.Binds c o b) :
    ∃ f m, b.env = f :: c.env ∧ x.Passes m ∧ m.store.var? f "this" = some (.object o) := by
  cases h with
  | construction hi hf hbound =>
    obtain ⟨f, henv, hv⟩ := bindThis_done hbound
    exact ⟨f, _, henv, ⟨_, .step (.initializer hi hf hbound) .refl, .inl rfl⟩, hv⟩
  | @access n _ _ line m _ m' hbound =>
    obtain ⟨f, henv, hv⟩ := bindThis_done hbound
    by_cases hg : b.isGetter = true
    · exact ⟨f, m', henv, ⟨_, .step (.getter hbound hg) .refl, .inl rfl⟩, hv⟩
    · refine ⟨f, { m' with store := m'.store.freshSerial.2 }, henv, ⟨_, .refl, .inr ?_⟩, hv⟩
      change (Eval.methodOf (n + 1) c o line m).EndsIn _
      rw [Eval.methodOf, Run.bind_of_done hbound, if_neg hg]
      rfl

/-- The frame of the receiver is made for the declaration of a class. -/
theorem Binds.creates {w : World} {Γ : Scopes} (h : x.Binds c o b) (hr : x.activity.Ready w Γ x.machine) :
    ∃ decl, x.Creates b.env (.receiver decl) := by
  cases h with
  | access hbound =>
    obtain ⟨-, ⟨_, decl, hb⟩, -⟩ := hr
    exact ⟨decl, .bound hbound hb.declares⟩
  | construction hi hf hbound =>
    obtain ⟨-, hcls, -⟩ := hr
    obtain ⟨_, decl, hb⟩ := World.ClassReady.method hcls hf
    exact ⟨decl, .initializer hi hf hbound hb.declares⟩

end Moment

/-! ## Declared methods -/

namespace Eval

variable {m m' : Machine} {env : Env}

theorem methodTable_env {initializers : Bool} : ∀ {ms : List Method} {table t : Dict FunctionObject} {m : Machine},
    methodTable env initializers ms table m = .done t m' → (∀ x f, table.get? x = some f → f.closure.env = env) →
    ∀ x f, t.get? x = some f → f.closure.env = env
  | [], _, _, _, h, ht => by cases h; exact ht
  | mm :: ms, table, t, m, h, ht => by
    obtain ⟨f, m₁, hf, h⟩ := Run.of_bind_done h
    refine methodTable_env h fun x g hg => ?_
    rw [Dict.get?_insert] at hg
    split at hg
    · cases hg; cases hf; rfl
    · exact ht x g hg

/-- The methods of a class have the environment of its members. -/
theorem newClass_done {name : Name} {parent : Option Class} {ms ss : List Method} {c : Class}
    (h : newClass name parent ms ss m = .done c m') : ∃ env m₁, memberEnv parent m = .done env m₁ ∧
      m₁.store.Extends m'.store ∧ ∀ x f, c.layer.methods.get? x = some f → f.closure.env = env := by
  obtain ⟨env, m₁, henv, h⟩ := Run.of_bind_done h
  obtain ⟨mt, m₂, hmt, h⟩ := Run.of_bind_done h
  obtain ⟨st, m₃, hst, h⟩ := Run.of_bind_done h
  obtain ⟨serial, m₄, hs, h⟩ := Run.of_bind_done h
  cases h
  have hmethods := (Own.methodTable (P := True) env true ms .empty (m := m₁)).store trivial m₂ (by rw [hmt]; rfl)
  have hstatics := (Own.methodTable (P := True) env false ss .empty (m := m₂)).store trivial m₃ (by rw [hst]; rfl)
  have hserial := (Own.freshSerial (P := True) (m := m₃)).store trivial m' (by rw [hs]; rfl)
  exact ⟨env, m₁, henv, (hmethods.trans hstatics).trans hserial, methodTable_env hmt nofun⟩

end Eval

/-- The environment begins with the frame of `super`, or with one that is no such frame. -/
def Store.Inherits (s : Store) (env : Env) : Option Class → Prop
  | some k => ∃ f outer, env = f :: outer ∧ s.var? f "super" = some (.klass k)
  | none => ∃ f ∈ env.head?, ∃ x, x ≠ "super" ∧ (s.var? f x).isSome

theorem Store.Inherits.later {s s' : Store} {env : Env} {parent : Option Class} (h : s.Inherits env parent)
    (he : s.Extends s') : s'.Inherits env parent := by
  cases parent with
  | none =>
    obtain ⟨f, hf, x, hx, hv⟩ := h
    exact ⟨f, hf, x, hx, he.bound f x hv⟩
  | some k =>
    obtain ⟨f, outer, henv, hv⟩ := h
    exact ⟨f, outer, henv, (he.fixed f "super" (lt_of_var? hv) (.inr rfl)).trans hv⟩

namespace Eval

variable {m m' : Machine} {name : Name}

theorem evaluateSuperclass_same : ∀ {n : Nat} {ref : Option Reference} {parent : Option Class},
    evaluateSuperclass n ref m = .done parent m' → m' = m
  | _ + 1, none, _, h => by cases h; rfl
  | _ + 1, some ref, parent, h => by
    obtain ⟨v, m₁, hv, h⟩ := Run.of_bind_done h
    have hsame : m₁ = m := by
      unfold lookUp at hv
      dsimp only at hv
      split at hv <;> cases hv
      rfl
    cases v <;> cases h
    exact hsame

/-- A declaration binds its name in the innermost frame. -/
theorem define_done {v : Value} (h : define name v m = .done () m') :
    ∃ f ∈ m.env.head?, m' = { m with store := m.store.setVar f name.text v } := by
  rw [define, Run.bind_apply] at h
  simp only [Run.read_apply] at h
  cases hslot : m.store.freeSlot? m.env name.text with
  | none => rw [hslot] at h; cases h
  | some f =>
    rw [hslot] at h
    cases h
    exact ⟨f, (Option.filter_eq_some_iff.mp hslot).1, rfl⟩

theorem overwrite_ends (v : Value) (hn : name.IsPlain) (flow : Flow) :
    ∃ m', ((overwrite name v >>= fun _ => pure flow : Eval Flow) m).EndsIn m' ∧ m.store.Extends m'.store := by
  have hown : Own True m ((overwrite name v >>= fun _ => pure flow : Eval Flow) m) :=
    .bind (.overwrite v fun _ => hn) fun _ _ _ => .pure flow
  have hends : ∃ m', ((overwrite name v >>= fun _ => pure flow : Eval Flow) m).EndsIn m' := by
    rw [overwrite, Run.bind_apply, Run.bind_apply]
    simp only [Run.read_apply]
    cases m.store.slot? m.env name.text <;> exact ⟨_, rfl⟩
  obtain ⟨m', he⟩ := hends
  exact ⟨m', he, hown.store trivial m' he⟩

/-- The members of a class see the superclass in a frame of its own, or else the frame with the name of their class. -/
theorem memberEnv_inherits {parent : Option Class} {env : Env} (h : memberEnv parent m = .done env m') (hn : name.IsPlain)
    (hname : ∃ f ∈ m.env.head?, (m.store.var? f name.text).isSome) : m'.store.Inherits env parent := by
  cases parent with
  | none =>
    cases h
    obtain ⟨f, hf, hv⟩ := hname
    exact ⟨f, hf, name.text, hn.2, hv⟩
  | some k =>
    cases h
    exact ⟨m.store.frames.size, m.env, rfl, (m.store.var?_extend _ m.env _ _).trans (if_pos rfl)⟩

end Eval

/-- The methods of a class have one environment, which tells what the superclass was when the class was declared. -/
theorem Moment.Declares.inherits {x : Moment} {parent : Option Class} {c : Class} {w : World} {Γ : Scopes}
    (h : x.Declares parent c) (hr : x.activity.Ready w Γ x.machine) : ∃ env m, x.Passes m ∧ m.store.Inherits env parent ∧
      ∀ name f, c.layer.methods.get? name = some f → f.closure.env = env := by
  cases h with
  | @classDecl n m name ref ms ss parent m₁ m₂ c m₃ hparent hdefine hclass =>
    obtain ⟨hat, -, hsee⟩ := hr
    have hn : name.IsPlain := hsee.proper.1
    obtain rfl := evaluateSuperclass_same hparent
    obtain ⟨f, hf, rfl⟩ := define_done hdefine
    obtain ⟨env, m₄, henv, hextends, hmethods⟩ := newClass_done hclass
    have hlt : f < m₁.store.frames.size := hat.models.lt f (List.mem_of_mem_head? hf)
    have hname : ((m₁.store.setVar f name.text .nil).var? f name.text).isSome := by
      rw [Store.var?_setVar, if_pos ⟨rfl, rfl, hlt⟩]
      rfl
    obtain ⟨m', he, hlast⟩ := overwrite_ends (m := m₃) (.klass c) hn .completed
    refine ⟨env, m', ⟨_, .refl, .inr ?_⟩, ?_, hmethods⟩
    · change (Eval.execute (n + 1) (.classDecl name ref ms ss) m₁).EndsIn m'
      rw [Eval.execute, Run.bind_of_done hparent, Run.bind_of_done hdefine, Run.bind_of_done hclass]
      exact he
    · exact ((memberEnv_inherits henv hn ⟨f, hf, hname⟩).later hextends).later hlast

end Lox
