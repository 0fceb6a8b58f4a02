import Lox.Proofs.Evaluation.World

/-!
# Which frames gain names

An evaluation adds names only to the frame that is in scope, those that its statements declare, and to frames that it has
made itself. Every such frame belongs to what has opened its scope: only names that are declared there get into it, at any
time.
-/

namespace Lox

/-- All names that the scope declares, sooner or later. -/
def Opener.declares : Opener → List String
  | .block body => declaredBy body
  | .routine r => r.params.map Name.text ++ declaredBy r.body
  | .receiver _ => ["this"]
  | .parent _ => ["super"]

/-- The names that the work declares in the scope in which it begins. -/
def Activity.declares : Activity → List String
  | .stmt st => st.declares
  | .stmts sts => declaredBy sts
  | .loop _ body => body.declares
  | _ => []

def Outcome.EndsIn {σ ε α : Type} : Outcome σ ε α → σ → Prop
  | .done _ s, s' => s' = s
  | .failed _ s, s' => s' = s
  | .exhausted, _ => False

namespace Moment

/-- The machine is one that the evaluation comes through. -/
def Passes (x : Moment) (m : Machine) : Prop := ∃ y, x.Reaches y ∧ (m = y.machine ∨ y.outcome.EndsIn m)

/-- The environment is created now or later. -/
def Makes (x : Moment) (env : Env) (opener : Opener) : Prop := ∃ y, x.Reaches y ∧ y.Creates env opener

/-- The names that the frame in scope may gain. -/
def May (x : Moment) (f : FrameId) (name : String) : Prop := x.machine.env.head? = some f ∧ name ∈ x.activity.declares

end Moment

/-! ## Stores -/

namespace Store

theorem var?_of_le {s : Store} {f : FrameId} (h : s.frames.size ≤ f) (x : String) : s.var? f x = none := by
  simp [var?, frame?, h]

/-- No frame has gained names but those that it may. -/
structure Gains (may : FrameId → String → Prop) (s s' : Store) : Prop where
  size : s.frames.size ≤ s'.frames.size
  names : ∀ f x, f < s.frames.size → (s'.var? f x).isSome → (s.var? f x).isSome ∨ may f x

/-- In the frame of the environment are only names that the scope declares. -/
def Owned (s : Store) (env : Env) (opener : Opener) : Prop :=
  ∀ f ∈ env.head?, ∀ x, (s.var? f x).isSome → x ∈ opener.declares

variable {may : FrameId → String → Prop} {s s' s'' : Store}

theorem Gains.of_frames (h : s'.frames = s.frames) : Gains may s s' :=
  ⟨Nat.le_of_eq (by rw [h]), fun f x _ hx => .inl (by simpa [var?, frame?, h] using hx)⟩

theorem Gains.trans (h : Gains may s s') (h' : Gains may s' s'') : Gains may s s'' where
  size := Nat.le_trans h.size h'.size
  names f x hf hx := (h'.names f x (Nat.lt_of_lt_of_le hf h.size) hx).elim (h.names f x hf) .inr

theorem Gains.imp {may' : FrameId → String → Prop} (h : Gains may s s') (hmay : ∀ f x, may f x → may' f x) : Gains may' s s' :=
  ⟨h.size, fun f x hf hx => (h.names f x hf hx).imp_right (hmay f x)⟩

theorem Gains.setVar {f : FrameId} {x : String} (v : Value) (h : (s.var? f x).isSome ∨ may f x) :
    Gains may s (s.setVar f x v) where
  size := by simp [Store.setVar]
  names g y _ hy := by
    rw [var?_setVar] at hy
    split at hy
    · rename_i hg
      obtain ⟨rfl, rfl, -⟩ := hg
      exact h
    · exact .inl hy

end Store

/-! ## Operations -/

/-- Where it ends, the environment is the same, and no frame has gained names but those that it may. -/
def Quiet {α : Type} (m : Machine) (may : FrameId → String → Prop) (o : Outcome Machine Error α) : Prop :=
  ∀ m', o.EndsIn m' → m'.env = m.env ∧ m.store.Gains may m'.store

namespace Quiet

section
variable {α β : Type} {m : Machine} {may : FrameId → String → Prop}

theorem of_frames {o : Outcome Machine Error α}
    (h : ∀ m', o.EndsIn m' → m'.env = m.env ∧ m'.store.frames = m.store.frames) : Quiet m may o :=
  fun m' he => ⟨(h m' he).1, .of_frames (h m' he).2⟩

theorem pure (a : α) : Quiet m may ((Pure.pure a : Eval α) m) := of_frames fun _ he => he ▸ ⟨rfl, rfl⟩

theorem fail {line : Nat} {fault : RuntimeFault} : Quiet m may ((Eval.fail line fault : Eval α) m) :=
  of_frames fun _ he => he ▸ ⟨rfl, rfl⟩

theorem bind {body : Eval α} {next : α → Eval β} (h : Quiet m may (body m))
    (hn : ∀ a m', body m = .done a m' → m'.env = m.env → Quiet m' may (next a m')) : Quiet m may ((body >>= next) m) := by
  intro m' he
  rw [Run.bind_apply] at he
  cases hb : body m with
  | exhausted => rw [hb] at he; exact he.elim
  | failed e m₁ => rw [hb] at h he; exact h m' he
  | done a m₁ =>
    rw [hb] at h he
    obtain ⟨henv, hgains⟩ := h m₁ rfl
    obtain ⟨henv', hgains'⟩ := hn a m₁ hb henv m' he
    exact ⟨henv'.trans henv, hgains.trans hgains'⟩

theorem ofExcept {line : Nat} (x : Except RuntimeFault α) : Quiet m may (Eval.ofExcept line x m) := by
  cases x with
  | ok a => exact .pure a
  | error fault => exact .fail

theorem read (p : Machine → α) : Quiet m may (Run.read p m) := of_frames fun _ he => he ▸ ⟨rfl, rfl⟩

theorem lookUp (id : NodeId) (name : Name) : Quiet m may (Eval.lookUp id name m) := by
  unfold Eval.lookUp
  dsimp only
  split <;> exact of_frames fun _ he => he ▸ ⟨rfl, rfl⟩

theorem setSlot {name : Name} {slot : Machine → Option FrameId} {fault : RuntimeFault} (v : Value)
    (h : ∀ f ∈ slot m, (m.store.var? f name.text).isSome ∨ may f name.text) :
    Quiet m may ((Run.read slot >>= fun found => match found with
      | some frame => Eval.setVar frame name.text v
      | none => Eval.fail name.line fault : Eval Unit) m) := by
  refine bind (read slot) fun found m' hfound _ => ?_
  cases hfound
  cases hs : slot m with
  | none => exact .fail
  | some f =>
    intro m' he
    obtain rfl := he
    exact ⟨rfl, .setVar v (h f hs)⟩

theorem isSome_of_slotAt? {s : Store} {env : Env} {d : Nat} {x : String} {f : FrameId} (h : s.slotAt? env d x = some f) :
    (s.var? f x).isSome := by
  obtain ⟨-, hf⟩ := Option.filter_eq_some_iff.mp h
  exact hf

theorem assign (id : NodeId) (name : Name) (v : Value) : Quiet m may (Eval.assign id name v m) := by
  refine setSlot v fun f hf => .inl ?_
  split at hf
  · exact isSome_of_slotAt? hf
  · exact isSome_of_slotAt? hf

theorem define {name : Name} (v : Value) (h : ∀ f ∈ m.env.head?, may f name.text) : Quiet m may (Eval.define name v m) := by
  refine setSlot v fun f hf => .inr (h f ?_)
  obtain ⟨hf, -⟩ := Option.filter_eq_some_iff.mp hf
  exact hf

theorem overwrite (name : Name) (v : Value) : Quiet m may (Eval.overwrite name v m) := by
  refine setSlot v fun f hf => .inl ?_
  exact List.find?_some (p := fun f => (m.store.var? f name.text).isSome) hf

theorem freshSerial : Quiet m may (Eval.freshSerial m) := of_frames fun _ he => he ▸ ⟨rfl, rfl⟩

theorem newFunction (c : Closure) : Quiet m may (Eval.newFunction c m) := bind freshSerial fun _ _ _ _ => .pure _

theorem newInstance (c : Class) : Quiet m may (Eval.newInstance c m) := of_frames fun _ he => he ▸ ⟨rfl, rfl⟩

theorem setField (i : Instance) (x : String) (v : Value) : Quiet m may (Eval.setField i x v m) :=
  of_frames fun _ he => he ▸ ⟨rfl, rfl⟩

theorem superClass (id : NodeId) (line : Nat) : Quiet m may (Eval.superClass id line m) := by
  unfold Eval.superClass
  split <;> exact of_frames fun _ he => he ▸ ⟨rfl, rfl⟩

theorem superReceiver (id : NodeId) (line : Nat) : Quiet m may (Eval.superReceiver id line m) := by
  unfold Eval.superReceiver
  dsimp only
  split <;> exact of_frames fun _ he => he ▸ ⟨rfl, rfl⟩

theorem receiverOf (c : Closure) : Quiet m may (Eval.receiverOf c m) := by
  unfold Eval.receiverOf
  split <;> exact of_frames fun _ he => he ▸ ⟨rfl, rfl⟩

theorem methodTable (env : Env) (initializers : Bool) : ∀ (ms : List Method) (table : Dict FunctionObject) {m : Machine},
    Quiet m may (Eval.methodTable env initializers ms table m)
  | [], table, _ => .pure table
  | _ :: ms, _, _ => bind (newFunction _) fun _ _ _ _ => methodTable env initializers ms _

theorem writeLine (text : String) (fault : OutputFault → Error) : Quiet m may (Eval.writeLine text fault m) := by
  unfold Eval.writeLine
  split <;> exact of_frames fun _ he => he ▸ ⟨rfl, rfl⟩

theorem callNative (fn : Native) (arguments : List Value) (line : Nat) : Quiet m may (Eval.callNative fn arguments line m) := by
  unfold Eval.callNative
  split
  · exact of_frames fun _ he => he ▸ ⟨rfl, rfl⟩
  · unfold Eval.readLine
    dsimp only
    split <;> exact of_frames fun _ he => he ▸ ⟨rfl, rfl⟩
  · exact bind (writeLine _ _) fun _ _ _ _ => .pure _
  · exact .pure _
  · exact .pure _

end

end Quiet

/-! ## Evaluations -/

section
variable {α : Type}

/-- The machine is the one at the end, or one that a nested moment comes through. -/
def Passed (calls : Moment → Prop) (o : Outcome Machine Error α) (m : Machine) : Prop :=
  o.EndsIn m ∨ ∃ z, calls z ∧ z.Passes m

/-- The environment is created here, or by a nested moment. -/
def Made (calls : Moment → Prop) (creates : Env → Opener → Prop) (env : Env) (opener : Opener) : Prop :=
  creates env opener ∨ ∃ z, calls z ∧ z.Makes env opener

/-- What an evaluation with these nested moments and these environments does to the frames, if names may be added only to
frames that are there. -/
structure Keeping (m : Machine) (may : FrameId → String → Prop) (calls : Moment → Prop) (creates : Env → Opener → Prop)
    (o : Outcome Machine Error α) : Prop where
  gains : ∀ m', Passed calls o m' → m.store.Gains may m'.store
  env : ∀ m', o.EndsIn m' → m'.env = m.env
  last : ∀ m', o.EndsIn m' → ∀ m'', Passed calls o m'' → m''.store.frames.size ≤ m'.store.frames.size
  fresh : ∀ env opener, Made calls creates env opener → ∀ f ∈ env.head?,
    m.store.frames.size ≤ f ∧ ∀ m', o.EndsIn m' → f < m'.store.frames.size
  /-- A frame is created once. -/
  once : ∀ env opener env' opener', Made calls creates env opener → Made calls creates env' opener' →
    ∀ f ∈ env.head?, f ∈ env'.head? → env = env'
  owned : ∀ env opener, Made calls creates env opener → ∀ m', Passed calls o m' → m'.store.Owned env opener

def Keeps (m : Machine) (may : FrameId → String → Prop) (calls : Moment → Prop) (creates : Env → Opener → Prop)
    (o : Outcome Machine Error α) : Prop :=
  (∀ f x, may f x → f < m.store.frames.size) → Keeping m may calls creates o

namespace Keeps

variable {β : Type} {m : Machine} {may : FrameId → String → Prop} {calls : Moment → Prop} {creates : Env → Opener → Prop}

/-- Nothing is nested or created. -/
theorem quiet {o : Outcome Machine Error α} (h : Quiet m may o) : Keeps m may (fun _ => False) (fun _ _ => False) o := by
  intro _
  have ends : ∀ {m'}, Passed (fun _ => False) o m' → o.EndsIn m' := fun hp => hp.elim id fun ⟨_, hz, _⟩ => hz.elim
  have none_made : ∀ {env opener}, ¬ Made (fun _ => False) (fun _ _ => False) env opener :=
    fun hm => hm.elim id fun ⟨_, hz, _⟩ => hz
  refine ⟨fun m' hp => (h m' (ends hp)).2, fun m' he => (h m' he).1, fun m' he m'' hp => ?_, fun _ _ hm => (none_made hm).elim,
    fun _ _ _ _ hm => (none_made hm).elim, fun _ _ hm => (none_made hm).elim⟩
  have he' := ends hp
  cases o with
  | done a m₁ => cases he; cases he'; exact Nat.le_refl _
  | failed e m₁ => cases he; cases he'; exact Nat.le_refl _
  | exhausted => exact he.elim

theorem imp {o : Outcome Machine Error α} {may' : FrameId → String → Prop} {calls' : Moment → Prop}
    {creates' : Env → Opener → Prop} (h : Keeps m may calls creates o) (hmay : ∀ f x, may f x → may' f x)
    (hcalls : ∀ z, calls' z → calls z) (hcreates : ∀ env opener, creates' env opener → creates env opener) :
    Keeps m may' calls' creates' o := by
  intro hb
  have passed : ∀ {m'}, Passed calls' o m' → Passed calls o m' := fun hp => hp.imp_right fun ⟨z, hz, hm⟩ => ⟨z, hcalls z hz, hm⟩
  have made : ∀ {env opener}, Made calls' creates' env opener → Made calls creates env opener :=
    fun hm => hm.imp (hcreates _ _) fun ⟨z, hz, hm⟩ => ⟨z, hcalls z hz, hm⟩
  have h := h fun f x hf => hb f x (hmay f x hf)
  exact ⟨fun m' hp => (h.gains m' (passed hp)).imp hmay, h.env, fun m' he m'' hp => h.last m' he m'' (passed hp),
    fun _ _ hm => h.fresh _ _ (made hm), fun _ _ _ _ hm hm' => h.once _ _ _ _ (made hm) (made hm'),
    fun _ _ hm m' hp => h.owned _ _ (made hm) m' (passed hp)⟩

/-- Only stores count, and the environment at the end. -/
theorem of_store {m₀ : Machine} {o₀ : Outcome Machine Error α} {o : Outcome Machine Error β} (h : Keeps m₀ may calls creates o₀)
    (hstore : m₀.store = m.store)
    (hends : ∀ m', o.EndsIn m' → m'.env = m.env ∧ ∃ m'', o₀.EndsIn m'' ∧ m''.store = m'.store) : Keeps m may calls creates o := by
  intro hb
  have h := h (by rw [hstore]; exact hb)
  have passed : ∀ {m'}, Passed calls o m' → ∃ m'', Passed calls o₀ m'' ∧ m''.store = m'.store := by
    rintro m' (he | hz)
    · obtain ⟨-, m'', he, hs⟩ := hends m' he
      exact ⟨m'', .inl he, hs⟩
    · exact ⟨m', .inr hz, rfl⟩
  refine ⟨fun m' hp => ?_, fun m' he => (hends m' he).1, fun m' he m'' hp => ?_, fun env opener hm f hf => ?_, h.once,
    fun env opener hm m' hp => ?_⟩
  · obtain ⟨m₁, hp, hs⟩ := passed hp
    rw [← hstore, ← hs]
    exact h.gains m₁ hp
  · obtain ⟨-, m₁, he, hs⟩ := hends m' he
    obtain ⟨m₂, hp, hs'⟩ := passed hp
    rw [← hs, ← hs']
    exact h.last m₁ he m₂ hp
  · obtain ⟨hle, hlt⟩ := h.fresh env opener hm f hf
    refine ⟨by rw [← hstore]; exact hle, fun m' he => ?_⟩
    obtain ⟨-, m₁, he, hs⟩ := hends m' he
    rw [← hs]
    exact hlt m₁ he
  · obtain ⟨m₁, hp, hs⟩ := passed hp
    rw [← hs]
    exact h.owned env opener hm m₁ hp

/-- One part after the other. To a frame that is made in the first part the second part adds nothing. -/
theorem after {calls' : Moment → Prop} {creates' : Env → Opener → Prop} {a : α} {m₁ : Machine} {o : Outcome Machine Error β}
    (h : Keeps m may calls creates (.done a m₁ : Outcome Machine Error α)) (hn : m₁.env = m.env → Keeps m₁ may calls' creates' o) :
    Keeps m may (fun z => calls z ∨ calls' z) (fun env opener => creates env opener ∨ creates' env opener) o := by
  intro hb
  have h := h hb
  have hend : (Outcome.done a m₁ : Outcome Machine Error α).EndsIn m₁ := rfl
  have hgains := h.gains m₁ (.inl hend)
  have h' := hn (h.env m₁ hend) fun f x hf => Nat.lt_of_lt_of_le (hb f x hf) hgains.size
  -- what is passed or made belongs to one of the parts
  have passed : ∀ {m'}, Passed (fun z => calls z ∨ calls' z) o m' →
      Passed calls (.done a m₁ : Outcome Machine Error α) m' ∨ Passed calls' o m' := by
    rintro m' (he | ⟨z, hz | hz, hp⟩)
    · exact .inr (.inl he)
    · exact .inl (.inr ⟨z, hz, hp⟩)
    · exact .inr (.inr ⟨z, hz, hp⟩)
  have made : ∀ {env opener}, Made (fun z => calls z ∨ calls' z) (fun env opener => creates env opener ∨ creates' env opener)
      env opener → Made calls creates env opener ∨ Made calls' creates' env opener := by
    rintro env opener ((hc | hc) | ⟨z, hz | hz, hm⟩)
    · exact .inl (.inl hc)
    · exact .inr (.inl hc)
    · exact .inl (.inr ⟨z, hz, hm⟩)
    · exact .inr (.inr ⟨z, hz, hm⟩)
  refine ⟨fun m' hp => ?_, fun m' he => (h'.env m' he).trans (h.env m₁ hend), fun m' he m'' hp => ?_,
    fun env opener hm f hf => ?_, fun env opener env' opener' hm hm' f hf hf' => ?_, fun env opener hm m' hp f hf x hx => ?_⟩
  · exact (passed hp).elim (h.gains m') fun hp => hgains.trans (h'.gains m' hp)
  · exact (passed hp).elim (fun hp => Nat.le_trans (h.last m₁ hend m'' hp) (h'.gains m' (.inl he)).size) (h'.last m' he m'')
  · rcases made hm with hm | hm
    · obtain ⟨hle, hlt⟩ := h.fresh env opener hm f hf
      exact ⟨hle, fun m' he => Nat.lt_of_lt_of_le (hlt m₁ hend) (h'.gains m' (.inl he)).size⟩
    · obtain ⟨hle, hlt⟩ := h'.fresh env opener hm f hf
      exact ⟨Nat.le_trans hgains.size hle, hlt⟩
  · -- the frames of the second part are newer than those of the first
    have newer : ∀ {env₁ opener₁ env₂ opener₂}, Made calls creates env₁ opener₁ → Made calls' creates' env₂ opener₂ →
        f ∈ env₁.head? → f ∉ env₂.head? := fun hm₁ hm₂ hf₁ hf₂ =>
      Nat.lt_irrefl f (Nat.lt_of_lt_of_le ((h.fresh _ _ hm₁ f hf₁).2 m₁ hend) (h'.fresh _ _ hm₂ f hf₂).1)
    rcases made hm with hm | hm <;> rcases made hm' with hm' | hm'
    · exact h.once _ _ _ _ hm hm' f hf hf'
    · exact absurd hf' (newer hm hm' hf)
    · exact absurd hf (newer hm' hm hf')
    · exact h'.once _ _ _ _ hm hm' f hf hf'
  · rcases made hm with hm | hm
    · obtain ⟨hle, hlt⟩ := h.fresh env opener hm f hf
      rcases passed hp with hp | hp
      · exact h.owned env opener hm m' hp f hf x hx
      · rcases (h'.gains m' hp).names f x (hlt m₁ hend) hx with hx | hx
        · exact h.owned env opener hm m₁ (.inl hend) f hf x hx
        · exact absurd (hb f x hx) (Nat.not_lt.mpr hle)
    · rcases passed hp with hp | hp
      · -- not made yet
        have hle := Nat.le_trans (h.last m₁ hend m' hp) (h'.fresh env opener hm f hf).1
        rw [Store.var?_of_le hle] at hx
        cases hx
      · exact h'.owned env opener hm m' hp f hf x hx

theorem bind {body : Eval α} {next : α → Eval β} {calls' : α → Machine → Moment → Prop}
    {creates' : α → Machine → Env → Opener → Prop} (h : Keeps m may calls creates (body m))
    (hn : ∀ a m', body m = .done a m' → m'.env = m.env → Keeps m' may (calls' a m') (creates' a m') (next a m')) :
    Keeps m may (fun z => calls z ∨ ∃ a m', body m = .done a m' ∧ calls' a m' z)
      (fun env opener => creates env opener ∨ ∃ a m', body m = .done a m' ∧ creates' a m' env opener)
      ((body >>= next) m) := by
  rw [Run.bind_apply]
  cases hbody : body m with
  | exhausted =>
    have hfirst : Keeps m may calls creates (.exhausted : Outcome Machine Error β) :=
      of_store (hbody ▸ h) rfl fun _ he => he.elim
    refine hfirst.imp (fun _ _ => id) (fun z hz => hz.elim id ?_) (fun env opener hm => hm.elim id ?_)
    · rintro ⟨a, m', hd, -⟩; cases hd
    · rintro ⟨a, m', hd, -⟩; cases hd
  | failed e m₁ =>
    rw [hbody] at h
    have hfirst : Keeps m may calls creates (.failed e m₁ : Outcome Machine Error β) :=
      fun hb => of_store h rfl (fun m' he => ⟨(h hb).env m' he, m', he, rfl⟩) hb
    refine hfirst.imp (fun _ _ => id) (fun z hz => hz.elim id ?_) (fun env opener hm => hm.elim id ?_)
    · rintro ⟨a, m', hd, -⟩; cases hd
    · rintro ⟨a, m', hd, -⟩; cases hd
  | done a m₁ =>
    rw [hbody] at h
    refine (h.after (hn a m₁ hbody)).imp (fun _ _ => id) (fun z hz => hz.imp_right ?_) (fun env opener hm => hm.imp_right ?_)
    · rintro ⟨a', m', hd, hz⟩; cases hd; exact hz
    · rintro ⟨a', m', hd, hm⟩; cases hd; exact hm

theorem within {env : Env} {body : Eval β} (h : Keeps { m with env } may calls creates (body { m with env })) :
    Keeps m may calls creates (Eval.within env body m) := by
  refine h.of_store rfl fun m' he => ?_
  unfold Eval.within at he
  cases hb : body { m with env } with
  | exhausted => rw [hb] at he; exact he.elim
  | failed e m₁ => rw [hb] at he; cases he; exact ⟨rfl, m₁, rfl, rfl⟩
  | done a m₁ => rw [hb] at he; cases he; exact ⟨rfl, m₁, rfl, rfl⟩

theorem asCall {line : Nat} {body : Eval β}
    (h : ¬ maxDepth ≤ m.depth → Keeps { m with depth := m.depth + 1 } may calls creates (body { m with depth := m.depth + 1 })) :
    Keeps m may (fun z => ¬ maxDepth ≤ m.depth ∧ calls z) (fun env opener => ¬ maxDepth ≤ m.depth ∧ creates env opener)
      (Eval.asCall line body m) := by
  unfold Eval.asCall
  split
  · rename_i hd
    have hquiet : Quiet m may (.failed (.runtime line .stackOverflow) m : Outcome Machine Error β) :=
      .of_frames fun _ he => he ▸ ⟨rfl, rfl⟩
    exact (quiet hquiet).imp (fun _ _ => id) (fun z hz => hz.1 hd) fun _ _ hm => hm.1 hd
  · rename_i hd
    refine Keeps.imp ?_ (fun _ _ => id) (fun z hz => hz.2) fun _ _ hm => hm.2
    intro hb
    have hbody := h hd hb
    refine (h hd).of_store rfl (fun m' he => ?_) hb
    dsimp only at he
    cases hr : body { m with depth := m.depth + 1 } with
    | exhausted => rw [hr] at he; exact he.elim
    | failed e m₁ =>
      rw [hr] at he hbody
      cases he
      exact ⟨hbody.env m₁ rfl, m₁, rfl, rfl⟩
    | done a m₁ =>
      rw [hr] at he hbody
      cases he
      exact ⟨hbody.env m₁ rfl, m₁, rfl, rfl⟩

/-- The new frame gains only those names. So it belongs to whatever declares these and the names that it has from the
beginning. -/
theorem newFrame {frame : Frame} {outer : Env} {next : Env → Eval β} (names : String → Prop)
    {calls : Env → Machine → Moment → Prop} {creates : Env → Machine → Env → Opener → Prop}
    (h : ∀ env m', Eval.newFrame frame outer m = .done env m' → env.head? = some m.store.frames.size →
      Keeps m' (fun f x => may f x ∨ f = m.store.frames.size ∧ names x) (calls env m') (creates env m') (next env m')) :
    Keeps m may (fun z => ∃ env m', Eval.newFrame frame outer m = .done env m' ∧ calls env m' z)
      (fun env opener => (∃ env' m', Eval.newFrame frame outer m = .done env' m' ∧ creates env' m' env opener) ∨
        ∃ m', Eval.newFrame frame outer m = .done env m' ∧ ∀ x, (frame.get? x).isSome ∨ names x → x ∈ opener.declares)
      ((Eval.newFrame frame outer >>= next) m) := by
  let m₁ : Machine := { m with store := (m.store.extend frame outer).2 }
  have hsize : m₁.store.frames.size = m.store.frames.size + 1 := by simp [m₁, Store.extend]
  have hvar : ∀ f x, m₁.store.var? f x = if f = m.store.frames.size then frame.get? x else m.store.var? f x :=
    fun f x => m.store.var?_extend frame outer f x
  change Keeps m may _ _ (next (m.store.frames.size :: outer) m₁)
  intro hb
  have h := h (m.store.frames.size :: outer) m₁ rfl rfl fun f x hf => by
    rw [hsize]
    rcases hf with hf | ⟨rfl, -⟩
    · exact Nat.lt_succ_of_lt (hb f x hf)
    · exact Nat.lt_succ_self _
  have passed : ∀ {m'}, Passed (fun z => ∃ env m', Eval.newFrame frame outer m = .done env m' ∧ calls env m' z)
      (next (m.store.frames.size :: outer) m₁) m' →
        Passed (calls (m.store.frames.size :: outer) m₁) (next (m.store.frames.size :: outer) m₁) m' := by
    rintro m' (he | ⟨z, ⟨_, _, hd, hz⟩, hp⟩)
    · exact .inl he
    · cases hd; exact .inr ⟨z, hz, hp⟩
  have size_le : ∀ {m'}, Passed (calls (m.store.frames.size :: outer) m₁) (next (m.store.frames.size :: outer) m₁) m' →
      m.store.frames.size < m'.store.frames.size := by
    intro m' hp
    have hle := (h.gains m' hp).size
    rw [hsize] at hle
    exact hle
  -- what is made is the new environment, or made inside of it
  have made : ∀ {env opener}, Made (fun z => ∃ env m', Eval.newFrame frame outer m = .done env m' ∧ calls env m' z)
      (fun env opener => (∃ env' m', Eval.newFrame frame outer m = .done env' m' ∧ creates env' m' env opener) ∨
        ∃ m', Eval.newFrame frame outer m = .done env m' ∧ ∀ x, (frame.get? x).isSome ∨ names x → x ∈ opener.declares)
      env opener → Made (calls (m.store.frames.size :: outer) m₁) (creates (m.store.frames.size :: outer) m₁) env opener ∨
        env = m.store.frames.size :: outer ∧ ∀ x, (frame.get? x).isSome ∨ names x → x ∈ opener.declares := by
    rintro env opener ((⟨_, _, hd, hm⟩ | ⟨_, hd, hdeclares⟩) | ⟨z, ⟨_, _, hd, hz⟩, hm⟩) <;> cases hd
    · exact .inl (.inl hm)
    · exact .inr ⟨rfl, hdeclares⟩
    · exact .inl (.inr ⟨z, hz, hm⟩)
  have newer : ∀ {env opener}, Made (calls (m.store.frames.size :: outer) m₁) (creates (m.store.frames.size :: outer) m₁) env
      opener → ∀ f ∈ env.head?, m.store.frames.size < f := by
    intro env opener hm f hf
    have hle := (h.fresh env opener hm f hf).1
    rw [hsize] at hle
    exact hle
  refine ⟨fun m' hp => ⟨Nat.le_of_lt (size_le (passed hp)), fun f x hf hx => ?_⟩, h.env,
    fun m' he m'' hp => h.last m' he m'' (passed hp), fun env opener hm f hf => ?_,
    fun env opener env' opener' hm hm' f hf hf' => ?_, fun env opener hm m' hp => ?_⟩
  · have hne : f ≠ m.store.frames.size := Nat.ne_of_lt hf
    rcases (h.gains m' (passed hp)).names f x (by rw [hsize]; exact Nat.lt_succ_of_lt hf) hx with hx | hx | ⟨hf, -⟩
    · rw [hvar, if_neg hne] at hx
      exact .inl hx
    · exact .inr hx
    · exact absurd hf hne
  · rcases made hm with hm | ⟨rfl, -⟩
    · exact ⟨Nat.le_of_lt (newer hm f hf), (h.fresh env opener hm f hf).2⟩
    · cases hf
      exact ⟨Nat.le_refl _, fun m' he => size_le (.inl he)⟩
  · rcases made hm with hm | ⟨rfl, -⟩ <;> rcases made hm' with hm' | ⟨rfl, -⟩
    · exact h.once _ _ _ _ hm hm' f hf hf'
    · cases hf'
      exact absurd (newer hm _ hf) (Nat.lt_irrefl _)
    · cases hf
      exact absurd (newer hm' _ hf') (Nat.lt_irrefl _)
    · rfl
  · rcases made hm with hm | ⟨rfl, hdeclares⟩
    · exact h.owned env opener hm m' (passed hp)
    · intro f hf x hx
      cases hf
      rcases (h.gains m' (passed hp)).names _ x (by rw [hsize]; exact Nat.lt_succ_self _) hx with hx | hx | ⟨-, hx⟩
      · rw [hvar, if_pos rfl] at hx
        exact hdeclares x (.inl hx)
      · exact absurd (hb _ x hx) (Nat.lt_irrefl _)
      · exact hdeclares x (.inr hx)

end Keeps

end

/-! ## Moments -/

/-- What the evaluation does to the frames from that moment on. -/
def Moment.Keeps (x : Moment) : Prop := Lox.Keeps x.machine x.May (· = x) (fun _ _ => False) x.outcome

/-- All of a moment that nests those moments and creates those environments itself. -/
theorem Keeps.moment {x : Moment} {calls : Moment → Prop} {creates : Env → Opener → Prop}
    (h : Keeps x.machine x.May calls creates x.outcome) (hcalls : ∀ y, x.Calls y → calls y)
    (hcreates : ∀ env opener, x.Creates env opener → creates env opener) : x.Keeps := by
  intro hb
  have h := h hb
  have passed : ∀ {m'}, Passed (· = x) x.outcome m' → m' = x.machine ∨ Passed calls x.outcome m' := by
    rintro m' (he | ⟨_, rfl, y, hr, hm⟩)
    · exact .inr (.inl he)
    · cases hr with
      | refl => exact hm.imp_right .inl
      | step hc hr => exact .inr (.inr ⟨_, hcalls _ hc, y, hr, hm⟩)
  have made : ∀ {env opener}, Made (· = x) (fun _ _ => False) env opener → Made calls creates env opener := by
    rintro env opener (hm | ⟨_, rfl, y, hr, hm⟩)
    · exact hm.elim
    · cases hr with
      | refl => exact .inl (hcreates _ _ hm)
      | step hc hr => exact .inr ⟨_, hcalls _ hc, y, hr, hm⟩
  refine ⟨fun m' hp => ?_, h.env, fun m' he m'' hp => ?_, fun env opener hm => h.fresh env opener (made hm),
    fun _ _ _ _ hm hm' => h.once _ _ _ _ (made hm) (made hm'), fun env opener hm m' hp => ?_⟩
  · rcases passed hp with rfl | hp
    · exact .of_frames rfl
    · exact h.gains m' hp
  · rcases passed hp with rfl | hp
    · exact (h.gains m' (.inl he)).size
    · exact h.last m' he m'' hp
  · rcases passed hp with rfl | hp
    · intro f hf x hx
      rw [Store.var?_of_le (h.fresh env opener (made hm) f hf).1] at hx
      cases hx
    · exact h.owned env opener (made hm) m' hp

end Lox
