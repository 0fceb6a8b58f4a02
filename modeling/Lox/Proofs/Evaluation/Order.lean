import Lox.Proofs.Evaluation.Frames
import Lox.Proofs.Evaluation.Resolved

/-!
# One machine after the other

An evaluation goes from machine to machine. Stores are only extended on the way, and whatever way a piece of work ends, the
environment and the depth are again what they were. An error stops all work around the one that has raised it.
-/

namespace Lox

namespace Activity

/-- The function whose body the work runs. -/
def body? : Activity → Option Closure
  | .runBody c _ => some c
  | _ => none

/-- The names that the work itself enters or overwrites in frames. -/
def writes : Activity → List Name
  | .expr (.assign _ name _) => [name]
  | .stmt (.varDecl name _) => [name]
  | .stmt (.funDecl name _) => [name]
  | .stmt (.classDecl name _ _ _) => [name]
  | _ => []

end Activity

/-- The run ends in that error. -/
def Outcome.Fails {σ ε α : Type} (o : Outcome σ ε α) (e : ε) : Prop := ∃ s, o = .failed e s

namespace Moment

/-- `this` and `super` are written nowhere, now or later, as if they were variables. -/
def Plain (x : Moment) : Prop := ∀ y, x.Reaches y → ∀ name ∈ y.activity.writes, name.IsPlain

/-- One more call is attempted, on that line, where there may be no more. -/
inductive Overflows : Moment → Nat → Prop where
  | enter {n c args line m} : maxDepth ≤ m.depth → Overflows ⟨n + 1, .enter c args line, m⟩ line

variable {x y : Moment} {m : Machine}

theorem Plain.calls (h : x.Plain) (hc : x.Calls y) : y.Plain := fun z hr => h z (.step hc hr)

theorem Plain.writes (h : x.Plain) {name : Name} (hn : name ∈ x.activity.writes) : name.IsPlain := h x .refl name hn

/-- The machines of a moment are the first one, the last one, and those of the moments that it calls. -/
theorem passes_iff : x.Passes m ↔ m = x.machine ∨ Passed x.Calls x.outcome m := by
  constructor
  · rintro ⟨y, hr, hm⟩
    cases hr with
    | refl => exact hm.imp_right .inl
    | step hc hr => exact .inr (.inr ⟨_, hc, y, hr, hm⟩)
  · rintro (hm | hm | ⟨y, hc, z, hr, hm⟩)
    · exact ⟨x, .refl, .inl hm⟩
    · exact ⟨x, .refl, .inr hm⟩
    · exact ⟨z, .step hc hr, hm⟩

end Moment

/-! ## Stores -/

namespace Store

/-- Frames are only ever added and names stay bound. What a frame has of `this` and `super` is settled when it is made. -/
structure Extends (s s' : Store) : Prop where
  size : s.frames.size ≤ s'.frames.size
  bound : ∀ f x, (s.var? f x).isSome → (s'.var? f x).isSome
  fixed : ∀ f x, f < s.frames.size → x = "this" ∨ x = "super" → s'.var? f x = s.var? f x

variable {s s' s'' : Store}

theorem lt_of_var? {f : FrameId} {x : String} {v : Value} (h : s.var? f x = some v) : f < s.frames.size := by
  by_contra hle
  rw [var?_of_le (Nat.le_of_not_lt hle)] at h
  cases h

theorem Extends.refl (s : Store) : s.Extends s := ⟨Nat.le_refl _, fun _ _ => id, fun _ _ _ _ => rfl⟩

theorem Extends.trans (h : s.Extends s') (h' : s'.Extends s'') : s.Extends s'' where
  size := Nat.le_trans h.size h'.size
  bound f x hx := h'.bound f x (h.bound f x hx)
  fixed f x hf hx := (h'.fixed f x (Nat.lt_of_lt_of_le hf h.size) hx).trans (h.fixed f x hf hx)

theorem Extends.of_frames (h : s'.frames = s.frames) : s.Extends s' := by
  have hvar : ∀ f x, s'.var? f x = s.var? f x := fun f x => by simp [var?, frame?, h]
  exact ⟨Nat.le_of_eq (by rw [h]), fun f x hx => by rw [hvar]; exact hx, fun f x _ _ => hvar f x⟩

theorem Extends.extend (s : Store) (frame : Frame) (env : Env) : s.Extends (s.extend frame env).2 where
  size := (s.extend_grows frame env).size
  bound := (s.extend_grows frame env).bound
  fixed f x hf _ := by rw [var?_extend, if_neg (Nat.ne_of_lt hf)]

theorem Extends.setVar (s : Store) (f : FrameId) {name : Name} (v : Value) (hn : name.IsPlain) :
    s.Extends (s.setVar f name.text v) where
  size := (s.setVar_grows f v hn).size
  bound := (s.setVar_grows f v hn).bound
  fixed g y _ hy := by
    rw [var?_setVar, if_neg]
    rintro ⟨-, rfl, -⟩
    exact hy.elim hn.1 hn.2

end Store

/-! ## What a moment does itself -/

section
variable {α β : Type} {P : Prop} {m : Machine}

/-- Where it ends, all is as before but the store, which has been extended, if the names that it writes may be written. -/
structure Own (P : Prop) (m : Machine) (o : Outcome Machine Error α) : Prop where
  env : ∀ m', o.EndsIn m' → m'.env = m.env
  depth : ∀ m', o.EndsIn m' → m'.depth = m.depth
  store : P → ∀ m', o.EndsIn m' → m.store.Extends m'.store
  fault : ∀ line, ¬ o.Fails (.runtime line .stackOverflow)

namespace Own

/-- The machine that a value is found on is the same but for the store. -/
theorem done {a : α} {m' : Machine} (henv : m'.env = m.env) (hd : m'.depth = m.depth) (hg : P → m.store.Extends m'.store) :
    Own P m (.done a m') :=
  ⟨fun _ he => he ▸ henv, fun _ he => he ▸ hd, fun hp _ he => he ▸ hg hp, fun _ ⟨_, h⟩ => nomatch h⟩

theorem failed {e : Error} {m' : Machine} (henv : m'.env = m.env) (hd : m'.depth = m.depth) (hg : P → m.store.Extends m'.store)
    (hf : ∀ line, e ≠ .runtime line .stackOverflow) : Own P m (.failed e m' : Outcome Machine Error α) :=
  ⟨fun _ he => he ▸ henv, fun _ he => he ▸ hd, fun hp _ he => he ▸ hg hp, fun line ⟨_, h⟩ => hf line (by cases h; rfl)⟩

theorem pure (a : α) : Own P m ((Pure.pure a : Eval α) m) := done rfl rfl fun _ => .refl _

theorem fail {line : Nat} {fault : RuntimeFault} (hf : fault ≠ .stackOverflow) : Own P m ((Eval.fail line fault : Eval α) m) :=
  failed rfl rfl (fun _ => .refl _) fun _ h => hf (by cases h; rfl)

theorem bind {body : Eval α} {next : α → Eval β} (h : Own P m (body m))
    (hn : ∀ a m', body m = .done a m' → Own P m' (next a m')) : Own P m ((body >>= next) m) := by
  rw [Run.bind_apply]
  cases hb : body m with
  | exhausted => exact ⟨nofun, nofun, nofun, fun _ ⟨_, h⟩ => nomatch h⟩
  | failed e m₁ =>
    rw [hb] at h
    refine failed (h.env m₁ rfl) (h.depth m₁ rfl) (fun hp => h.store hp m₁ rfl) fun line he => h.fault line ⟨m₁, by rw [he]⟩
  | done a m₁ =>
    rw [hb] at h
    have hn := hn a m₁ hb
    exact ⟨fun m' he => (hn.env m' he).trans (h.env m₁ rfl), fun m' he => (hn.depth m' he).trans (h.depth m₁ rfl),
      fun hp m' he => (h.store hp m₁ rfl).trans (hn.store hp m' he), hn.fault⟩

theorem ofExcept {line : Nat} {x : Except RuntimeFault α} (hf : x ≠ .error .stackOverflow) : Own P m (Eval.ofExcept line x m) := by
  cases x with
  | ok a => exact .pure a
  | error fault => exact .fail fun h => hf (by rw [h])

theorem read (p : Machine → α) : Own P m (Run.read p m) := done rfl rfl fun _ => .refl _

/-! ### Variables -/

theorem lookUp (id : NodeId) (name : Name) : Own P m (Eval.lookUp id name m) := by
  unfold Eval.lookUp
  dsimp only
  split
  · exact done rfl rfl fun _ => .refl _
  · exact failed rfl rfl (fun _ => .refl _) nofun

theorem setSlot {name : Name} {fault : NameFault} (hn : P → name.IsPlain) (v : Value) (slot : Machine → Option FrameId) :
    Own P m ((Run.read slot >>= fun found => match found with
      | some frame => Eval.setVar frame name.text v
      | none => Eval.fail name.line (.naming fault) : Eval Unit) m) := by
  refine bind (read slot) fun found m' hfound => ?_
  cases hfound
  cases slot m with
  | none => exact .fail nofun
  | some f => exact done rfl rfl fun hp => Store.Extends.setVar _ f v (hn hp)

theorem assign (id : NodeId) {name : Name} (v : Value) (hn : P → name.IsPlain) : Own P m (Eval.assign id name v m) :=
  setSlot hn v _

theorem define {name : Name} (v : Value) (hn : P → name.IsPlain) : Own P m (Eval.define name v m) := setSlot hn v _

theorem overwrite {name : Name} (v : Value) (hn : P → name.IsPlain) : Own P m (Eval.overwrite name v m) := setSlot hn v _

theorem newFrame (frame : Frame) (env : Env) : Own P m (Eval.newFrame frame env m) :=
  done rfl rfl fun _ => Store.Extends.extend _ frame env

/-! ### Objects -/

theorem freshSerial : Own P m (Eval.freshSerial m) := done rfl rfl fun _ => .of_frames rfl

theorem newFunction (c : Closure) : Own P m (Eval.newFunction c m) := bind freshSerial fun _ _ _ => .pure _

theorem newInstance (c : Class) : Own P m (Eval.newInstance c m) := done rfl rfl fun _ => .of_frames rfl

theorem setField (i : Instance) (x : String) (v : Value) : Own P m (Eval.setField i x v m) := done rfl rfl fun _ => .of_frames rfl

theorem bindThis (c : Closure) (i : Instance) : Own P m (Eval.bindThis c i m) := bind (newFrame _ _) fun _ _ _ => .pure _

theorem methodTable (env : Env) (initializers : Bool) : ∀ (ms : List Method) (table : Dict FunctionObject) {m : Machine},
    Own P m (Eval.methodTable env initializers ms table m)
  | [], table, _ => .pure table
  | _ :: ms, _, _ => bind (newFunction _) fun _ _ _ => methodTable env initializers ms _

theorem memberEnv (parent : Option Class) : Own P m (Eval.memberEnv parent m) := by
  refine bind (read _) fun here m' _ => ?_
  cases parent with
  | none => exact .pure here
  | some c => exact newFrame _ here

theorem newClass (name : Name) (parent : Option Class) (ms ss : List Method) : Own P m (Eval.newClass name parent ms ss m) :=
  bind (memberEnv parent) fun _ _ _ => bind (methodTable _ _ _ _) fun _ _ _ => bind (methodTable _ _ _ _) fun _ _ _ =>
    bind freshSerial fun _ _ _ => .pure _

theorem superClass (id : NodeId) (line : Nat) : Own P m (Eval.superClass id line m) := by
  unfold Eval.superClass
  split
  · exact done rfl rfl fun _ => .refl _
  · exact failed rfl rfl (fun _ => .refl _) nofun

theorem superReceiver (id : NodeId) (line : Nat) : Own P m (Eval.superReceiver id line m) := by
  unfold Eval.superReceiver
  dsimp only
  split
  · exact done rfl rfl fun _ => .refl _
  · exact failed rfl rfl (fun _ => .refl _) nofun

theorem receiverOf (c : Closure) : Own P m (Eval.receiverOf c m) := by
  unfold Eval.receiverOf
  split
  · exact done rfl rfl fun _ => .refl _
  · exact failed rfl rfl (fun _ => .refl _) nofun

/-! ### Input and output -/

theorem writeLine (text : String) {fault : OutputFault → Error} (hf : ∀ f line, fault f ≠ .runtime line .stackOverflow) :
    Own P m (Eval.writeLine text fault m) := by
  unfold Eval.writeLine
  split
  · exact done rfl rfl fun _ => .refl _
  · exact failed rfl rfl (fun _ => .refl _) fun line => hf _ line

theorem callNative (fn : Native) (arguments : List Value) (line : Nat) : Own P m (Eval.callNative fn arguments line m) := by
  unfold Eval.callNative
  split
  · exact done rfl rfl fun _ => .refl _
  · unfold Eval.readLine
    dsimp only
    split
    · exact done rfl rfl fun _ => .refl _
    · exact done rfl rfl fun _ => .refl _
    · exact failed rfl rfl (fun _ => .refl _) nofun
  · exact bind (writeLine _ nofun) fun _ _ _ => .pure _
  · exact .pure _
  · exact .pure _

end Own

end

/-! ## What a moment does in all -/

section
variable {α β : Type} {x : Moment} {w : Work} {m : Machine} {calls : Moment → Prop}

/-- A piece of work: that of a moment, or all that a host asks for. -/
structure Work where
  /-- It writes only plain names, now or later. -/
  plain : Prop
  /-- It may turn to the moment. -/
  turns : Moment → Prop
  /-- On that line it attempts itself one call more than there may be. -/
  overflows : Nat → Prop
  nested : plain → ∀ z, turns z → z.Plain

def Moment.work (x : Moment) : Work := ⟨x.Plain, x.Calls, x.Overflows, fun hp _ hc => hp.calls hc⟩

/-- A part of the work, which begins on that machine and turns to those moments. -/
structure Orderly (w : Work) (m : Machine) (calls : Moment → Prop) (o : Outcome Machine Error α) : Prop where
  turns : ∀ z, calls z → w.turns z
  env : ∀ m', o.EndsIn m' → m'.env = m.env
  depth : ∀ m', o.EndsIn m' → m'.depth = m.depth
  /-- The depth counts the bodies that run. -/
  deeper : ∀ z, calls z → z.machine.depth = m.depth + z.activity.body?.toList.length
  /-- A nested error ends the work. -/
  stops : ∀ z, calls z → ∀ e, z.outcome.Fails e → o.Fails e
  raised : ∀ line, o.Fails (.runtime line .stackOverflow) →
    w.overflows line ∨ ∃ z, calls z ∧ z.outcome.Fails (.runtime line .stackOverflow)
  first : w.plain → ∀ m', Passed calls o m' → m.store.Extends m'.store
  last : w.plain → ∀ m', o.EndsIn m' → ∀ m'', Passed calls o m'' → m''.store.Extends m'.store
  chain : w.plain → ∀ m', Passed calls o m' → ∀ m'', Passed calls o m'' → m'.store.Extends m''.store ∨ m''.store.Extends m'.store

/-- The work of the moment, whatever moments it calls. -/
def Moment.Orderly (x : Moment) : Prop := Lox.Orderly x.work x.machine x.Calls x.outcome

theorem Outcome.EndsIn.eq {σ ε α : Type} {o : Outcome σ ε α} {s s' : σ} (h : o.EndsIn s) (h' : o.EndsIn s') : s = s' := by
  cases o with
  | done a t => exact h.trans h'.symm
  | failed e t => exact h.trans h'.symm
  | exhausted => exact h.elim

namespace Moment.Orderly

/-- All machines of a moment come after its first one. -/
theorem passes_extends (h : x.Orderly) (hp : x.Plain) (hm : x.Passes m) : x.machine.store.Extends m.store := by
  rcases passes_iff.mp hm with rfl | hm
  · exact .refl _
  · exact h.first hp m hm

theorem passes_last (h : x.Orderly) (hp : x.Plain) {m' : Machine} (he : x.outcome.EndsIn m') (hm : x.Passes m) :
    m.store.Extends m'.store := by
  rcases passes_iff.mp hm with rfl | hm
  · exact h.first hp m' (.inl he)
  · exact h.last hp m' he m hm

/-- Of two machines of a moment one comes after the other. -/
theorem passes_chain (h : x.Orderly) (hp : x.Plain) {m' : Machine} (hm : x.Passes m) (hm' : x.Passes m') :
    m.store.Extends m'.store ∨ m'.store.Extends m.store := by
  rcases passes_iff.mp hm with rfl | hp₁
  · exact .inl (h.passes_extends hp hm')
  · rcases passes_iff.mp hm' with rfl | hp₂
    · exact .inr (h.passes_extends hp hm)
    · exact h.chain hp m hp₁ m' hp₂

end Moment.Orderly

namespace Orderly

/-- The same calls, told in another way. -/
theorem congr {o : Outcome Machine Error α} {calls' : Moment → Prop} (h : Orderly w m calls o)
    (hcalls : ∀ z, calls' z ↔ calls z) : Orderly w m calls' o := by
  have heq : calls' = calls := funext fun z => propext (hcalls z)
  rw [heq]
  exact h

/-- A part that calls nothing. -/
theorem leaf {o : Outcome Machine Error α} (henv : ∀ m', o.EndsIn m' → m'.env = m.env)
    (hdepth : ∀ m', o.EndsIn m' → m'.depth = m.depth) (hstore : w.plain → ∀ m', o.EndsIn m' → m.store.Extends m'.store)
    (hraised : ∀ line, o.Fails (.runtime line .stackOverflow) → w.overflows line) : Orderly w m (fun _ => False) o := by
  have ends : ∀ {m'}, Passed (fun _ => False) o m' → o.EndsIn m' := fun hp => hp.elim id fun ⟨_, hz, _⟩ => hz.elim
  exact {
    turns := nofun
    env := henv
    depth := hdepth
    deeper := nofun
    stops := nofun
    raised := fun line hf => .inl (hraised line hf)
    first := fun hp m' hm => hstore hp m' (ends hm)
    last := fun _ m' he m'' hm => by rw [(ends hm).eq he]; exact .refl _
    chain := fun _ m' hm m'' hm' => by rw [(ends hm).eq (ends hm')]; exact .inl (.refl _) }

theorem own {o : Outcome Machine Error α} (h : Own w.plain m o) : Orderly w m (fun _ => False) o :=
  leaf h.env h.depth h.store fun line hf => absurd hf (h.fault line)

/-- A part that is one nested moment, on the same store, and ends like it. -/
theorem single {z : Moment} {o : Outcome Machine Error α} (h : z.Orderly) (hc : w.turns z) (hstore : z.machine.store = m.store)
    (hdeeper : z.machine.depth = m.depth + z.activity.body?.toList.length)
    (hends : ∀ m', o.EndsIn m' → m'.env = m.env ∧ m'.depth = m.depth ∧ ∃ m'', z.outcome.EndsIn m'' ∧ m''.store = m'.store)
    (hfails : ∀ e, o.Fails e ↔ z.outcome.Fails e) : Orderly w m (· = z) o := by
  have passed : ∀ {m'}, Passed (· = z) o m' → ∃ m'', z.Passes m'' ∧ m''.store = m'.store := by
    rintro m' (he | ⟨_, rfl, hz⟩)
    · obtain ⟨-, -, m'', he, hs⟩ := hends m' he
      exact ⟨m'', Moment.passes_iff.mpr (.inr (.inl he)), hs⟩
    · exact ⟨m', hz, rfl⟩
  refine ⟨fun _ hz => hz ▸ hc, fun m' he => (hends m' he).1, fun m' he => (hends m' he).2.1, ?_, ?_,
    fun line hf => .inr ⟨z, rfl, (hfails _).mp hf⟩, fun hp m' hm => ?_, fun hp m' he m'' hm => ?_, fun hp m' hm m'' hm' => ?_⟩
  · rintro _ rfl
    exact hdeeper
  · rintro _ rfl e hf
    exact (hfails e).mpr hf
  · obtain ⟨m₁, hm, hs⟩ := passed hm
    rw [← hstore, ← hs]
    exact h.passes_extends (w.nested hp _ hc) hm
  · obtain ⟨-, -, m₁, he, hs⟩ := hends m' he
    obtain ⟨m₂, hm, hs'⟩ := passed hm
    rw [← hs, ← hs']
    exact h.passes_last (w.nested hp _ hc) he hm
  · obtain ⟨m₁, hm, hs⟩ := passed hm
    obtain ⟨m₂, hm', hs'⟩ := passed hm'
    rw [← hs, ← hs']
    exact h.passes_chain (w.nested hp _ hc) hm hm'

/-- A call of a moment that runs no body itself. -/
theorem call {n : Nat} (ih : ∀ a m, Moment.Orderly ⟨n, a, m⟩) {a : Activity} (hc : x.Calls ⟨n, a, m⟩) (hb : a.body? = none) :
    Orderly x.work m (· = ⟨n, a, m⟩) (a.run n m) :=
  have h : Moment.Orderly ⟨n, a, m⟩ := ih a m
  single h hc rfl (by rw [hb]; rfl) (fun m' he => ⟨h.env m' he, h.depth m' he, m', he, rfl⟩) fun _ => Iff.rfl

/-- One more call. Its body is the only one that is run with a greater depth. -/
theorem asCall {n : Nat} {c : Closure} {args : List Value} {line : Nat}
    (h : Moment.Orderly ⟨n, .runBody c args, { m with depth := m.depth + 1 }⟩) :
    Orderly (Moment.work ⟨n + 1, .enter c args line, m⟩) m
      (fun z => ¬ maxDepth ≤ m.depth ∧ z = ⟨n, .runBody c args, { m with depth := m.depth + 1 }⟩)
      (Eval.asCall line ((Activity.runBody c args).run n) m) := by
  have houtcome : Moment.outcome ⟨n, .runBody c args, { m with depth := m.depth + 1 }⟩ =
      (Activity.runBody c args).run n { m with depth := m.depth + 1 } := rfl
  unfold Eval.asCall
  split
  · rename_i hd
    -- no body is run, and the error is the overflow itself
    refine (leaf (fun m' he => he ▸ rfl) (fun m' he => he ▸ rfl) (fun _ m' he => he ▸ .refl _) fun line' hf => ?_).congr
      fun z => ⟨fun hz => hz.1 hd, False.elim⟩
    obtain ⟨_, hf⟩ := hf
    cases hf
    exact .enter hd
  · rename_i hd
    refine (single (m := m) h (Moment.Calls.enter hd) rfl rfl (fun m' he => ?_) fun e => ?_).congr fun z => and_iff_right hd
    · rw [houtcome]
      dsimp only at he
      have henv := h.env
      rw [houtcome] at henv
      cases hr : (Activity.runBody c args).run n { m with depth := m.depth + 1 } with
      | exhausted => rw [hr] at he; exact he.elim
      | failed e m₁ => rw [hr] at he henv; cases he; exact ⟨henv m₁ rfl, rfl, m₁, rfl, rfl⟩
      | done a m₁ => rw [hr] at he henv; cases he; exact ⟨henv m₁ rfl, rfl, m₁, rfl, rfl⟩
    · rw [houtcome]
      dsimp only
      cases (Activity.runBody c args).run n { m with depth := m.depth + 1 } <;> simp [Outcome.Fails]

/-- What ends like a part on the same store, with the same environment and depth as at its beginning. -/
theorem of_store {m₀ : Machine} {o₀ : Outcome Machine Error α} {o : Outcome Machine Error α} (h : Orderly w m₀ calls o₀)
    (hstore : m₀.store = m.store) (hdepth : m₀.depth = m.depth)
    (hends : ∀ m', o.EndsIn m' → m'.env = m.env ∧ m'.depth = m.depth ∧ ∃ m'', o₀.EndsIn m'' ∧ m''.store = m'.store)
    (hfails : ∀ e, o.Fails e ↔ o₀.Fails e) : Orderly w m calls o := by
  have passed : ∀ {m'}, Passed calls o m' → ∃ m'', Passed calls o₀ m'' ∧ m''.store = m'.store := by
    rintro m' (he | hz)
    · obtain ⟨-, -, m'', he, hs⟩ := hends m' he
      exact ⟨m'', .inl he, hs⟩
    · exact ⟨m', .inr hz, rfl⟩
  refine ⟨h.turns, fun m' he => (hends m' he).1, fun m' he => (hends m' he).2.1, fun z hz => ?_, fun z hz e hf => ?_,
    fun line hf => h.raised line ((hfails _).mp hf), fun hp m' hm => ?_, fun hp m' he m'' hm => ?_, fun hp m' hm m'' hm' => ?_⟩
  · rw [← hdepth]; exact h.deeper z hz
  · exact (hfails e).mpr (h.stops z hz e hf)
  · obtain ⟨m₁, hm, hs⟩ := passed hm
    rw [← hstore, ← hs]
    exact h.first hp m₁ hm
  · obtain ⟨-, -, m₁, he, hs⟩ := hends m' he
    obtain ⟨m₂, hm, hs'⟩ := passed hm
    rw [← hs, ← hs']
    exact h.last hp m₁ he m₂ hm
  · obtain ⟨m₁, hm, hs⟩ := passed hm
    obtain ⟨m₂, hm', hs'⟩ := passed hm'
    rw [← hs, ← hs']
    exact h.chain hp m₁ hm m₂ hm'

theorem within {env : Env} {body : Eval α} (h : Orderly w { m with env } calls (body { m with env })) :
    Orderly w m calls (Eval.within env body m) := by
  refine h.of_store rfl rfl (fun m' he => ?_) fun e => ?_
  · unfold Eval.within at he
    cases hb : body { m with env } with
    | exhausted => rw [hb] at he; exact he.elim
    | failed e m₁ =>
      rw [hb] at he h
      cases he
      exact ⟨rfl, h.depth m₁ rfl, m₁, rfl, rfl⟩
    | done a m₁ =>
      rw [hb] at he h
      cases he
      exact ⟨rfl, h.depth m₁ rfl, m₁, rfl, rfl⟩
  · unfold Eval.within
    cases body { m with env } <;> simp [Outcome.Fails]

/-- One part after the other: what the first part comes through lies before all of the second part. -/
theorem after {calls' : Moment → Prop} {a : α} {m₁ : Machine} {o : Outcome Machine Error β}
    (h : Orderly w m calls (.done a m₁ : Outcome Machine Error α)) (hn : Orderly w m₁ calls' o) :
    Orderly w m (fun z => calls z ∨ calls' z) o := by
  have hend : (Outcome.done a m₁ : Outcome Machine Error α).EndsIn m₁ := rfl
  have passed : ∀ {m'}, Passed (fun z => calls z ∨ calls' z) o m' →
      Passed calls (.done a m₁ : Outcome Machine Error α) m' ∨ Passed calls' o m' := by
    rintro m' (he | ⟨z, hz | hz, hp⟩)
    · exact .inr (.inl he)
    · exact .inl (.inr ⟨z, hz, hp⟩)
    · exact .inr (.inr ⟨z, hz, hp⟩)
  -- the machine between the two parts comes after those of the first and before those of the second
  have across : w.plain → ∀ m', Passed calls (.done a m₁ : Outcome Machine Error α) m' → ∀ m'', Passed calls' o m'' →
      m'.store.Extends m''.store :=
    fun hp m' hm m'' hm' => (h.last hp m₁ hend m' hm).trans (hn.first hp m'' hm')
  refine ⟨fun z hz => hz.elim (h.turns z) (hn.turns z), fun m' he => (hn.env m' he).trans (h.env m₁ hend),
    fun m' he => (hn.depth m' he).trans (h.depth m₁ hend), fun z hz => ?_, fun z hz e hf => ?_, fun line hf => ?_,
    fun hp m' hm => ?_, fun hp m' he m'' hm => ?_, fun hp m' hm m'' hm' => ?_⟩
  · rcases hz with hz | hz
    · exact h.deeper z hz
    · rw [hn.deeper z hz, h.depth m₁ hend]
  · rcases hz with hz | hz
    · obtain ⟨_, hd⟩ := h.stops z hz e hf
      cases hd
    · exact hn.stops z hz e hf
  · exact (hn.raised line hf).imp_right fun ⟨z, hz, hf⟩ => ⟨z, .inr hz, hf⟩
  · exact (passed hm).elim (h.first hp m') fun hm => (h.first hp m₁ (.inl hend)).trans (hn.first hp m' hm)
  · exact (passed hm).elim (fun hm => across hp m'' hm m' (.inl he)) (hn.last hp m' he m'')
  · rcases passed hm with hm | hm <;> rcases passed hm' with hm' | hm'
    · exact h.chain hp m' hm m'' hm'
    · exact .inl (across hp m' hm m'' hm')
    · exact .inr (across hp m'' hm' m' hm)
    · exact hn.chain hp m' hm m'' hm'

theorem bind {body : Eval α} {next : α → Eval β} {calls' : α → Machine → Moment → Prop} (h : Orderly w m calls (body m))
    (hn : ∀ a m', body m = .done a m' → Orderly w m' (calls' a m') (next a m')) :
    Orderly w m (fun z => calls z ∨ ∃ a m', body m = .done a m' ∧ calls' a m' z) ((body >>= next) m) := by
  rw [Run.bind_apply]
  cases hbody : body m with
  | exhausted =>
    rw [hbody] at h
    have hfirst : Orderly w m calls (.exhausted : Outcome Machine Error β) :=
      ⟨h.turns, nofun, nofun, h.deeper, fun z hz e hf => (nomatch h.stops z hz e hf), nofun, h.first, nofun, h.chain⟩
    exact hfirst.congr fun z => ⟨fun hz => hz.elim id fun ⟨_, _, hd, _⟩ => (nomatch hd), .inl⟩
  | failed e m₁ =>
    -- the second part is not begun
    rw [hbody] at h
    have hfirst : Orderly w m calls (.failed e m₁ : Outcome Machine Error β) := {
      turns := h.turns
      env := h.env
      depth := h.depth
      deeper := h.deeper
      stops := fun z hz e' hf => by
        obtain ⟨_, hf⟩ := h.stops z hz e' hf
        cases hf
        exact ⟨m₁, rfl⟩
      raised := fun line hf => h.raised line (by obtain ⟨_, hf⟩ := hf; cases hf; exact ⟨m₁, rfl⟩)
      first := h.first
      last := h.last
      chain := h.chain }
    exact hfirst.congr fun z => ⟨fun hz => hz.elim id fun ⟨_, _, hd, _⟩ => (nomatch hd), .inl⟩
  | done a m₁ =>
    rw [hbody] at h
    refine (h.after (hn a m₁ hbody)).congr fun z => or_congr Iff.rfl ⟨?_, fun hz => ⟨a, m₁, rfl, hz⟩⟩
    rintro ⟨_, _, hd, hz⟩
    cases hd
    exact hz

theorem ite {c : Prop} [Decidable c] {f g : Eval α} {calls' : Moment → Prop} (hf : c → Orderly w m calls (f m))
    (hg : ¬ c → Orderly w m calls' (g m)) : Orderly w m (fun z => c ∧ calls z ∨ ¬ c ∧ calls' z) ((if c then f else g) m) := by
  split
  · rename_i hc
    exact (hf hc).congr fun z => by simp [hc]
  · rename_i hc
    exact (hg hc).congr fun z => by simp [hc]

theorem ofOption {o : Option β} {f : Eval α} {g : β → Eval α} {calls' : β → Moment → Prop}
    (hf : o = none → Orderly w m calls (f m)) (hg : ∀ b, o = some b → Orderly w m (calls' b) (g b m)) :
    Orderly w m (fun z => o = none ∧ calls z ∨ ∃ b, o = some b ∧ calls' b z) (o.elim f g m) := by
  cases o with
  | none => exact (hf rfl).congr fun z => by simp
  | some b => exact (hg b rfl).congr fun z => by simp

/-- All of a moment, from its step. -/
theorem step {n : Nat} {a : Activity} (h : Orderly (Moment.work ⟨n + 1, a, m⟩) m calls (a.step .resolved (fun a => a.run n) m))
    (hcalls : ∀ y, Moment.Calls ⟨n + 1, a, m⟩ y → calls y) : Moment.Orderly ⟨n + 1, a, m⟩ := by
  have h : Orderly (Moment.work ⟨n + 1, a, m⟩) m calls (Moment.outcome ⟨n + 1, a, m⟩) := by
    rw [Moment.outcome, Activity.run_succ]
    exact h
  exact h.congr fun z => ⟨hcalls z, h.turns z⟩

end Orderly

end

end Lox
