import Lox.Proofs.Evaluation.Chain
import Lox.Proofs.Evaluation.Arising

/-!
# Links are made to what is there

An evaluation creates each frame inside an environment that it has, and declares each class with a superclass that it has. So
the links of an environment lead to the global frame, and those of a class to older ones.
-/

namespace Lox

/-! ## Frames -/

namespace World

variable {w : World} {s : Store} {env : Env} {Γ : Scopes}

/-- The first frame was created in an environment that begins with the second one. -/
def Links (w : World) (f g : FrameId) : Prop := ∃ outer opener, w.created (f :: g :: outer) opener

/-- No two environments that were created have one innermost frame. -/
def Once (w : World) : Prop :=
  ∀ env opener env' opener', w.created env opener → w.created env' opener' → ∀ f ∈ env.head?, f ∈ env'.head? → env = env'

theorem Once.links (h : w.Once) (f g g' : FrameId) : w.Links f g → w.Links f g' → g = g' := by
  rintro ⟨outer, opener, hc⟩ ⟨outer', opener', hc'⟩
  cases h _ _ _ _ hc hc' f rfl rfl
  rfl

/-- An environment of scopes leads from link to link to the global frame. -/
theorem Models.chain (h : w.Models s env Γ) (hroot : ∀ g, ¬ w.Links 0 g) : ∃ f, Chain w.Links f 0 env := by
  induction h with
  | global _ => exact ⟨0, .last hroot⟩
  | @scope f outer _ _ ha _ ih =>
    obtain ⟨g, hg⟩ := ih
    obtain ⟨rest, rfl⟩ := List.head?_eq_some_iff.mp hg.head
    exact ⟨f, .link ⟨rest, _, ha.created⟩ hg⟩

end World

namespace Moment

open Eval

variable {w : World} {Γ : Scopes} {x y : Moment} {env : Env} {opener : Opener}

/-- An environment is created with the next free frame, inside an environment of scopes. -/
theorem Creates.inside (hc : x.Creates env opener) (hr : x.activity.Ready w Γ x.machine) :
    ∃ outer Γ', env = x.machine.store.frames.size :: outer ∧ w.Models x.machine.store outer Γ' := by
  cases hc with
  | block hframe =>
    obtain ⟨hat, -, -⟩ := hr
    cases hframe
    exact ⟨_, Γ, rfl, hat.models⟩
  | body hframe =>
    obtain ⟨-, ⟨Γ', hc⟩, -, -⟩ := hr
    cases hframe
    exact ⟨_, Γ', rfl, hc.models⟩
  | bound hbound _ =>
    obtain ⟨-, ⟨Γ', _, hb⟩, -⟩ := hr
    cases hbound
    exact ⟨_, Γ', rfl, hb.models⟩
  | initializer hi hf hbound _ =>
    obtain ⟨-, hcls, -, -⟩ := hr
    obtain ⟨Γ', _, hb⟩ := World.ClassReady.method hcls hf
    cases hi
    cases hbound
    exact ⟨_, Γ', rfl, hb.models⟩
  | derived hparent hdefine hframe =>
    obtain ⟨hat, -, -⟩ := hr
    obtain rfl := evaluateSuperclass_same hparent
    obtain ⟨f, -, rfl⟩ := define_done hdefine
    cases hframe
    exact ⟨_, Γ, by simp [Store.setVar], hat.models⟩

theorem ready_machine (hr : x.activity.Ready w Γ x.machine) : w.MachineReady x.machine := by
  obtain ⟨n, a, m⟩ := x
  cases a with
  | call | apply | property | methodOf => exact hr.1
  | enter | runBody => exact World.CallReady.ready hr
  | _ => exact hr.1.ready

/-- A moment that was ready leaves a ready machine, with the environment that it has found. -/
theorem ends_ready (hcov : w.Covers x) (hr : x.activity.Ready w Γ x.machine) {m : Machine} (he : x.outcome.EndsIn m) :
    w.Continues x.machine m := by
  have hends := w.sound x.fuel x.activity x.machine Γ hcov hr
  change w.Ends x.machine x.Blames (x.activity.After w Γ) x.outcome at hends
  cases ho : x.outcome with
  | exhausted => rw [ho] at he; exact he.elim
  | done v m₁ => rw [ho] at he hends; cases he; exact hends.1
  | failed e m₁ => rw [ho] at he hends; cases he; exact hends.1

/-- An evaluation goes on in its environment and in those that it makes. -/
theorem Reaches.env_or_made (h : x.Reaches y) : y.machine.env = x.machine.env ∨ ∃ opener, x.Makes y.machine.env opener := by
  induction h with
  | refl => exact .inl rfl
  | step hc _ ih =>
    rcases ih with henv | ⟨opener, u, hu, hcreates⟩
    · rw [henv]
      obtain ⟨-, henv⟩ | ⟨f, opener, -, hcreates, henv⟩ := hc.scope
      · exact .inl henv
      · exact .inr ⟨opener, _, .refl, henv ▸ hcreates⟩
    · exact .inr ⟨opener, u, .step hc hu, hcreates⟩

end Moment

/-! ## Classes -/

/-- The names of the methods that a declaration gives its class. -/
def Activity.methodNames : Activity → List String
  | .stmt (.classDecl _ _ methods _) => methods.map (·.name.text)
  | _ => []

def Activity.staticNames : Activity → List String
  | .stmt (.classDecl _ _ _ statics) => statics.map (·.name.text)
  | _ => []

namespace Eval

variable {m m' : Machine} {env : Env}

theorem methodTable_keys {initializers : Bool} : ∀ {ms : List Method} {table t : Dict FunctionObject} {m : Machine},
    methodTable env initializers ms table m = .done t m' → m.store.nextSerial ≤ m'.store.nextSerial ∧
      ∀ x, (t.get? x).isSome ↔ (table.get? x).isSome ∨ x ∈ ms.map (·.name.text)
  | [], _, _, _, h => by cases h; exact ⟨Nat.le_refl _, fun x => by simp⟩
  | mm :: ms, table, t, m, h => by
    obtain ⟨f, m₁, hf, h⟩ := Run.of_bind_done h
    obtain ⟨hle, hnames⟩ := methodTable_keys h
    cases hf
    refine ⟨Nat.le_of_succ_le hle, fun x => ?_⟩
    rw [hnames, Dict.get?_insert]
    by_cases hx : x = mm.name.text <;> simp [hx]

theorem newClass_made {name : Name} {parent : Option Class} {ms ss : List Method} {c : Class}
    (h : newClass name parent ms ss m = .done c m') : c.superclass? = parent ∧ m.store.nextSerial ≤ c.serial ∧
      (∀ x, (c.layer.methods.get? x).isSome ↔ x ∈ ms.map (·.name.text)) ∧
      ∀ x, (c.layer.statics.get? x).isSome ↔ x ∈ ss.map (·.name.text) := by
  obtain ⟨env, m₁, henv, h⟩ := Run.of_bind_done h
  obtain ⟨mt, m₂, hmt, h⟩ := Run.of_bind_done h
  obtain ⟨st, m₃, hst, h⟩ := Run.of_bind_done h
  obtain ⟨serial, m₄, hs, h⟩ := Run.of_bind_done h
  cases h
  cases hs
  obtain ⟨hle, hmethods⟩ := methodTable_keys hmt
  obtain ⟨hle', hstatics⟩ := methodTable_keys hst
  have hsame : m₁.store.nextSerial = m.store.nextSerial := by
    cases parent <;> cases henv <;> rfl
  refine ⟨?_, hsame ▸ Nat.le_trans hle hle', fun x => (hmethods x).trans ?_, fun x => (hstatics x).trans ?_⟩
  · cases parent <;> rfl
  · simp
  · simp

end Eval

namespace Moment

open Eval

variable {w : World} {Γ : Scopes} {x : Moment} {parent : Option Class} {c : Class}

/-- The declaration makes the class. Its superclass is older. -/
structure Introduces (x : Moment) (c : Class) : Prop where
  declares : x.Declares c.superclass? c
  older : ∀ k ∈ c.superclass?, k.serial < x.machine.store.nextSerial
  fresh : x.machine.store.nextSerial ≤ c.serial
  methods : ∀ name, (c.layer.methods.get? name).isSome ↔ name ∈ x.activity.methodNames
  statics : ∀ name, (c.layer.statics.get? name).isSome ↔ name ∈ x.activity.staticNames

theorem Declares.superclass? (h : x.Declares parent c) : c.superclass? = parent := by
  cases h with
  | classDecl _ _ hclass => exact (newClass_made hclass).1

/-- A declared class is newer than its superclass. It is ready. -/
theorem Declares.introduces (h : x.Declares parent c) (hcov : w.Covers x) (hr : x.activity.Ready w Γ x.machine) :
    x.Introduces c ∧ ∃ s, w.ClassReady s c := by
  have hsuper := h.superclass?
  cases h with
  | @classDecl n m name ref ms ss parent m₁ m₂ c m₃ hparent hdefine hclass =>
    obtain ⟨hat, -, hsee⟩ := hr
    have hn : name.IsPlain := hsee.proper.1
    obtain ⟨-, hready⟩ := World.after (a := .superclass name ref) hcov .superclass ⟨hat, hsee.superclass⟩ hparent
    obtain rfl := evaluateSuperclass_same hparent
    have hready : w.ParentReady m₁.store ref parent := hready
    obtain ⟨hc₂, hmodels, -⟩ := (World.Ends.define (v := .nil) (F := fun _ => True) hat hn (fun _ _ _ => trivial)
      trivial).of_done hdefine
    have hready₂ : w.ParentReady m₂.store ref parent := ⟨hready.1, fun p hp => (hready.2 p hp).grow hc₂.grows⟩
    obtain ⟨-, hcls⟩ := (World.Ends.newClass (F := fun _ => True) ⟨hc₂.ready, hmodels⟩ rfl hready₂ hsee.methods hsee.statics
      fun k env m' hk hframe => by
        subst hk
        cases ref with
        | none => cases hready.1
        | some r => exact hcov.creates (.derived hparent hdefine hframe)).of_done hclass
    obtain ⟨-, hserial, hmethods, hstatics⟩ := newClass_made hclass
    refine ⟨⟨?_, fun k hk => ?_, Nat.le_trans hc₂.grows.serials hserial, hmethods, hstatics⟩, _, hcls⟩
    · rw [hsuper]
      exact .classDecl hparent hdefine hclass
    · rw [hsuper] at hk
      exact (hready.2 k hk _ (.head _)).older

end Moment

/-- The class that a value is or belongs to. -/
def Value.class? : Value → Option Class
  | .klass c => some c
  | .object i => some i.cls
  | .bound b => some b.receiver.cls
  | _ => none

/-- All classes of a lineage have been declared. -/
theorem Arises.declared {met : Moment → Prop} {v : Value} (h : Arises met v) : ∀ c ∈ v.class?, ∀ layer rest,
    layer :: rest <:+ c.lineage → ∃ x, met x ∧ x.Declares (Class.superclass? ⟨layer, rest⟩) ⟨layer, rest⟩ := by
  induction h with
  | @klass x parent c hx hdeclares _ ih =>
    rintro _ ⟨⟩ layer rest hsuffix
    obtain rfl := hdeclares.superclass?
    rcases List.suffix_cons_iff.mp hsuffix with heq | hsuffix
    · cases heq
      exact ⟨x, hx, hdeclares⟩
    · obtain ⟨_, ancestors⟩ := c
      cases ancestors with
      | nil => simp at hsuffix
      | cons next others => exact ih ⟨next, others⟩ rfl _ rfl layer rest hsuffix
  | object _ hi _ ih =>
    cases hi
    exact ih
  | bound _ _ _ _ _ _ ih => exact ih
  | cls _ ih => exact ih
  | @superclass c _ _ _ hc ih =>
    rintro _ ⟨⟩ layer rest hsuffix
    have hsuffix : layer :: rest <:+ c.ancestors := hc ▸ hsuffix
    exact ih c rfl layer rest (hsuffix.trans (List.suffix_cons _ _))
  | receiver _ ih => exact ih
  | nil | bool | number | string | native | function | static => exact nofun

/-- The function is a value, or belongs to one, or is being called. -/
inductive Closure.Occurs (met : Moment → Prop) : Closure → Prop where
  | function {f} : Arises met (.function f) → Occurs met f.closure
  | method {k name f} : Arises met (.klass k) → k.method? name = some f → Occurs met f.closure
  | bound {b} : Arises met (.bound b) → Occurs met b.method
  | entered {n c args line m} : met ⟨n, .enter c args line, m⟩ → Occurs met c

end Lox
