import Lox.Proofs.Session.Arising
import Lox.Proofs.Evaluation.Links

/-!
# The links of a session lead back to its beginning

Whatever happens in a session, each frame is linked to one that was there before it, and each class to one that was declared
before it. So all look-ups come to an end, at the global frame or at a class without a superclass.
-/

namespace Lox

variable {h : History} {r : Request} {x : Moment} {m : Machine} {env : Env} {opener : Opener}

namespace History

/-- The links from each frame to the frame that it was created in. -/
def Links (h : History) (r : Request) : FrameId → FrameId → Prop := (h.worldWith r).Links

/-- The session stands at the machine before the request, or comes through it. -/
def Comes (h : History) (r : Request) (m : Machine) : Prop := m = h.session.machine ∨ h.Passes r m

/-! ## Frames -/

/-- The frames of a request are new. -/
theorem Possible.once_next (hp : h.Possible) (hpast : (Past.world h.past).Once) : (h.worldWith r).Once := by
  obtain ⟨henv, hsize⟩ := hp.ready.at_global
  obtain ⟨α, o, hk, -⟩ := r.keeping henv hsize
  have newer : ∀ {env opener env' opener'}, Made (r.Begins h.session) (fun _ _ => False) env opener →
      (Past.world h.past).created env' opener' → ∀ f ∈ env.head?, f ∉ env'.head? := by
    intro env opener env' opener' hm hc f hf hf'
    have hle := (hk.fresh env opener hm f hf).1
    rw [r.machine_store] at hle
    exact Nat.not_lt.mpr hle (hp.owned.local_ env' opener' hc f hf').2
  rintro env opener env' opener' ⟨p, hp, x, ⟨y, hb, hreach⟩, hx⟩ ⟨q, hq, x', ⟨y', hb', hreach'⟩, hx'⟩ f hf hf'
  cases hp with
  | head =>
    cases hq with
    | head => exact hk.once _ _ _ _ (.inr ⟨y, hb, x, hreach, hx⟩) (.inr ⟨y', hb', x', hreach', hx'⟩) f hf hf'
    | tail _ hq => exact absurd hf' (newer (.inr ⟨y, hb, x, hreach, hx⟩) ⟨q, hq, x', ⟨y', hb', hreach'⟩, hx'⟩ f hf)
  | tail _ hp =>
    cases hq with
    | head => exact absurd hf (newer (.inr ⟨y', hb', x', hreach', hx'⟩) ⟨p, hp, x, ⟨y, hb, hreach⟩, hx⟩ f hf')
    | tail _ hq => exact hpast _ _ _ _ ⟨p, hp, x, ⟨y, hb, hreach⟩, hx⟩ ⟨q, hq, x', ⟨y', hb', hreach'⟩, hx'⟩ f hf hf'

theorem Possible.once_past (hp : h.Possible) : (Past.world h.past).Once := by
  induction hp with
  | start =>
    rintro _ _ _ _ ⟨_, hp, -⟩
    cases hp
  | next hp _ _ ih => exact hp.once_next ih
  | between _ _ _ _ ih => exact ih

theorem Possible.once (hp : h.Possible) : (h.worldWith r).Once := hp.once_next hp.once_past

section
variable (hp : h.Possible) (ha : h.Allows r)
include hp ha

/-- Every environment is created with the next free frame, inside an environment of scopes. -/
theorem Possible.created_inside (hx : h.Met r x) (hc : x.Creates env opener) : ∃ outer Γ,
    env = x.machine.store.frames.size :: outer ∧ (h.worldWith r).Models x.machine.store outer Γ := by
  obtain ⟨w, Γ, hsaw⟩ := hp.saw_met ha hx
  obtain ⟨outer, Γ', henv, hmodels⟩ := hc.inside hsaw.ready
  exact ⟨outer, Γ', henv, hmodels.mono hsaw.within⟩

theorem Possible.links_lt {f g : FrameId} (hl : h.Links r f g) : g < f := by
  obtain ⟨outer, opener, p, hpast, x, hx, hc⟩ := hl
  obtain ⟨_, _, henv, hmodels⟩ := hp.created_inside ha ⟨p, hpast, hx⟩ hc
  cases henv
  exact hmodels.lt g (.head _)

theorem Possible.chain_models {s : Store} {Γ : Scopes} (hm : (h.worldWith r).Models s env Γ) : ∃ f, Chain (h.Links r) f 0 env :=
  hm.chain fun _ hl => Nat.not_lt_zero _ (hp.links_lt ha hl)

theorem Possible.chain_created (hc : (h.worldWith r).created env opener) : ∃ f, Chain (h.Links r) f 0 env := by
  obtain ⟨p, hpast, x, hx, hcreates⟩ := hc
  obtain ⟨outer, Γ, rfl, hmodels⟩ := hp.created_inside ha ⟨p, hpast, hx⟩ hcreates
  obtain ⟨g, hg⟩ := hp.chain_models ha hmodels
  obtain ⟨rest, rfl⟩ := List.head?_eq_some_iff.mp hg.head
  exact ⟨_, .link ⟨rest, opener, p, hpast, x, hx, hcreates⟩ hg⟩

end

/-! ## Machines -/

/-- The evaluation of a request goes on in the global environment and in those that it creates. -/
theorem Ready.env_meets (hr : h.Ready) (ha : h.Allows r) (hx : r.Meets h.session x) :
    x.machine.env = globalEnv ∨ ∃ opener, (h.worldWith r).created x.machine.env opener := by
  obtain ⟨y, hb, hreach⟩ := hx
  have hbegin : y.machine.env = globalEnv := by
    cases hb with
    | call => exact hr.at_global.1
    | statement hc hprog hm =>
      obtain ⟨hcont, -⟩ := (hr.prefix_ends _ hc hprog).of_done hm
      rw [hcont.env, Request.machine_env]
      exact hr.at_global.1
  rcases hreach.env_or_made with henv | ⟨opener, z, hz, hc⟩
  · exact .inl (henv.trans hbegin)
  · exact .inr ⟨opener, Past.covers hb z _ opener hz hc⟩

section
variable (hp : h.Possible) (ha : h.Allows r)
include hp ha

theorem Possible.env_met (hx : h.Met r x) :
    x.machine.env = globalEnv ∨ ∃ opener, (h.worldWith r).created x.machine.env opener :=
  hp.met (P := fun past x => x.machine.env = globalEnv ∨ ∃ opener, (Past.world past).created x.machine.env opener)
    (fun p past _ henv => henv.imp_right fun ⟨opener, hc⟩ => ⟨opener, (Past.within p past).created _ _ hc⟩)
    (fun hp ha hx => hp.ready.env_meets ha hx) ha hx

theorem Possible.chain_global : Chain (h.Links r) 0 0 globalEnv := .last fun _ hl => Nat.not_lt_zero _ (hp.links_lt ha hl)

/-- The machines of a session are ready, and their environments are chains. -/
theorem Possible.comes_ready (hm : h.Comes r m) :
    (∃ w : World, w.Within (h.worldWith r) ∧ w.MachineReady m) ∧ ∃ f, Chain (h.Links r) f 0 m.env := by
  have chained : ∀ {x}, h.Met r x → ∃ f, Chain (h.Links r) f 0 x.machine.env := fun hx => by
    rcases hp.env_met ha hx with henv | ⟨opener, hc⟩
    · rw [henv]
      exact ⟨0, hp.chain_global ha⟩
    · exact hp.chain_created ha hc
  rcases hm with rfl | hm
  · refine ⟨⟨_, Past.within _ _, hp.ready.machine⟩, 0, ?_⟩
    rw [hp.ready.at_global.1]
    exact hp.chain_global ha
  · obtain ⟨y, hy, hm⟩ := hm.met
    obtain ⟨w, Γ, hsaw⟩ := hp.saw_met ha hy
    rcases hm with rfl | he
    · exact ⟨⟨w, hsaw.within, Moment.ready_machine hsaw.ready⟩, chained hy⟩
    · have hcont := Moment.ends_ready hsaw.covers hsaw.ready he
      exact ⟨⟨w, hsaw.within, hcont.ready⟩, by rw [hcont.env]; exact chained hy⟩

/-- From every frame of a machine the links lead to the global one. -/
theorem Possible.chain_frame (hm : h.Comes r m) {f : FrameId} (hf : f < m.store.frames.size) :
    ∃ env, Chain (h.Links r) f 0 env := by
  obtain ⟨⟨w, hw, hready⟩, -⟩ := hp.comes_ready ha hm
  rcases hready.store.made f hf with rfl | ⟨outer, opener, hc⟩
  · exact ⟨_, hp.chain_global ha⟩
  · obtain ⟨g, hg⟩ := hp.chain_created ha (hw.created _ _ hc)
    cases hg.head
    exact ⟨_, hg⟩

end

/-! ## Values -/

section
variable (hp : h.Possible) (ha : h.Allows r)
include hp ha

/-- Every class was declared. -/
theorem Possible.introduced {c : Class} (hc : Arises (h.Met r) (.klass c)) :
    ∃ x, h.Met r x ∧ x.Introduces c ∧ ∃ s, (h.worldWith r).ClassReady s c := by
  obtain ⟨x, hx, hdeclares⟩ := hc.declared c rfl c.layer c.ancestors (List.suffix_refl _)
  obtain ⟨w, Γ, hsaw⟩ := hp.saw_met ha hx
  obtain ⟨hintroduces, s, hready⟩ := hdeclares.introduces hsaw.covers hsaw.ready
  exact ⟨x, hx, hintroduces, s, hready.mono hsaw.within⟩

theorem Possible.older {c k : Class} (hc : Arises (h.Met r) (.klass c)) (hk : c.superclass? = some k) : k.serial < c.serial := by
  obtain ⟨x, -, hintroduces, -⟩ := hp.introduced ha hc
  exact Nat.lt_of_lt_of_le (hintroduces.older k hk) hintroduces.fresh

/-- From every function the links lead to the global frame. -/
theorem Possible.chain_closure {c : Closure} (hc : c.Occurs (h.Met r)) : ∃ f, Chain (h.Links r) f 0 c.env := by
  cases hc with
  | function hf =>
    cases hf with
    | @function x _ _ hx hmakes =>
      obtain ⟨w, Γ, hsaw⟩ := hp.saw_met ha hx
      rw [hmakes.env]
      cases hmakes with
      | lambda => exact hp.chain_models ha (hsaw.ready.1.models.mono hsaw.within)
      | funDecl => exact hp.chain_models ha (hsaw.ready.1.models.mono hsaw.within)
    | static hk hf =>
      obtain ⟨-, -, -, s, hready⟩ := hp.introduced ha hk
      obtain ⟨Γ, hcallable⟩ := hready.static hf
      exact hp.chain_models ha hcallable.models
  | method hk hf =>
    obtain ⟨-, -, -, s, hready⟩ := hp.introduced ha hk
    obtain ⟨Γ, decl, hbindable⟩ := hready.method hf
    exact hp.chain_models ha hbindable.models
  | bound hb =>
    cases hb with
    | bound hx hbinds =>
      obtain ⟨w, Γ, hsaw⟩ := hp.saw_met ha hx
      obtain ⟨decl, hcreates⟩ := hbinds.creates hsaw.ready
      exact hp.chain_created ha (Past.Meets.created hx hcreates)
  | entered hx =>
    obtain ⟨w, _, hsaw⟩ := hp.saw_met ha hx
    have hready : w.CallReady _ _ _ := hsaw.ready
    obtain ⟨Γ, hcallable⟩ := hready.callable
    exact hp.chain_models ha (hcallable.models.mono hsaw.within)

/-- All that is ever stored has arisen. -/
theorem Possible.comes_arisen (hm : h.Comes r m) : m.store.Holds (Arises (h.Met r)) := by
  rcases hm with rfl | hm
  · exact hp.arisen.store.imp fun _ hv => hv.mono fun _ hy => hy.next _
  · obtain ⟨y, hy, hm⟩ := hm.met
    obtain ⟨harises, hstore⟩ := hp.arisen_met ha hy
    rcases hm with rfl | he
    · exact hstore
    · have hleaves := yields .calls y.fuel y.activity y.machine hy harises hstore
      change (y.outcome).Leaves _ _ at hleaves
      cases ho : y.outcome with
      | exhausted => rw [ho] at he; exact he.elim
      | done v m₁ => rw [ho] at he hleaves; cases he; exact hleaves.1
      | failed e m₁ => rw [ho] at he hleaves; cases he; exact hleaves

end

end History

/-! ## The whole session -/

/-- Links lead to what is older. -/
structure History.Founded (h : History) (r : Request) : Prop where
  /-- A frame is linked to one that was there before. -/
  creates : ∀ x env opener, h.Met r x → x.Creates env opener →
    ∃ g outer, env = x.machine.store.frames.size :: g :: outer ∧ g < x.machine.store.frames.size
  older : ∀ f g, h.Links r f g → g < f
  /-- The link never changes. -/
  once : ∀ f g g', h.Links r f g → h.Links r f g' → g = g'
  frames : ∀ m, h.Comes r m → ∀ f < m.store.frames.size, ∃! env, Chain (h.Links r) f 0 env
  current : ∀ m, h.Comes r m → ∃ f, Chain (h.Links r) f 0 m.env
  /-- What is stored, at hand or given to the host has arisen, so the following is about all functions and classes. -/
  stored : ∀ m, h.Comes r m → m.store.Holds (Arises (h.Met r))
  atHand : ∀ x, h.Met r x → x.activity.Arises (h.Met r)
  given : ∀ v ∈ h.given, Arises (h.Met r) v
  closures : ∀ c : Closure, c.Occurs (h.Met r) → ∃ f, Chain (h.Links r) f 0 c.env
  classes : ∀ c, Arises (h.Met r) (.klass c) → ∃ x, h.Met r x ∧ x.Introduces c
  superclasses : ∀ c k, Arises (h.Met r) (.klass c) → c.superclass? = some k → Arises (h.Met r) (.klass k) ∧ k.serial < c.serial
  /-- So all look-ups come to an end. -/
  names : ∀ f env, Chain (h.Links r) f 0 env → Env.LooksUp (h.Links r) f env
  methods : ∀ c : Class, c.LooksUp ClassLayer.methods c.method?
  statics : ∀ c : Class, c.LooksUp ClassLayer.statics c.static?

/-- In every history of a session, the links of frames and classes lead back to the global frame and to first classes. -/
theorem links_are_founded (hp : h.Possible) (ha : h.Allows r) : h.Founded r where
  creates x env opener hx hc := by
    obtain ⟨outer, Γ, rfl, hmodels⟩ := hp.created_inside ha hx hc
    obtain ⟨f, hf⟩ := hp.chain_models ha hmodels
    obtain ⟨rest, rfl⟩ := List.head?_eq_some_iff.mp hf.head
    exact ⟨f, rest, rfl, hmodels.lt f (.head _)⟩
  older _ _ hl := hp.links_lt ha hl
  once := hp.once.links
  frames m hm f hf := by
    obtain ⟨env, henv⟩ := hp.chain_frame ha hm hf
    exact ⟨env, henv, fun env' henv' => henv.unique hp.once.links henv'⟩
  current _ hm := (hp.comes_ready ha hm).2
  stored _ hm := hp.comes_arisen ha hm
  atHand _ hx := (hp.arisen_met ha hx).1
  given v hv := (hp.arisen.given v hv).mono fun _ hy => hy.next _
  closures _ hc := hp.chain_closure ha hc
  classes c hc := by
    obtain ⟨x, hx, hintroduces, -⟩ := hp.introduced ha hc
    exact ⟨x, hx, hintroduces⟩
  superclasses c k hc hk := by
    refine ⟨?_, hp.older ha hc hk⟩
    obtain ⟨layer, ancestors⟩ := c
    cases ancestors with
    | nil => cases hk
    | cons next rest =>
      cases hk
      exact .superclass hc rfl
  names _ _ henv := henv.looksUp hp.once.links
  methods c := c.looksUp _
  statics c := c.looksUp _

/-- A function in its own environment, an instance that holds itself, and a class in place of its superclass. -/
theorem links_of_cyclic_values :
    let h := History.start (.ofBytes []) .unlimited 0
    let first := Request.run 60 "class A { m() { return fun(): this; } } class B : A { init() { this.me = this; } } var b = B(); A = B;
      fun f() { var g = fun(): g; return g; } var k = f();"
    let second := Request.run 60 "print b.me.m()() == b; print k() == k;"
    ∃ a a', h.session.answer? first = some a ∧ a.session.answer? second = some a' ∧
      a'.session.written = "true\ntrue\n".toUTF8.toList ∧ (h.after first a).Founded second := by
  intro h first second
  have hall : ((h.session.answer? first).bind fun a => a.session.answer? second).map (fun a => a.session.written) =
      some "true\ntrue\n".toUTF8.toList := by decide +kernel
  obtain ⟨a', hall, hw⟩ := Option.map_eq_some_iff.mp hall
  obtain ⟨a, ha, ha'⟩ := Option.bind_eq_some_iff.mp hall
  have hp : (h.after first a).Possible := .next .start trivial ha
  exact ⟨a, a', ha, ha', hw, links_are_founded hp trivial⟩

end Lox
