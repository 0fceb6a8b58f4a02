import Lox.Proofs.Session.History

/-!
# Sessions stay ready

Between requests the machine is ready, its environment is the global one, and the identities from
`nextId` on are free. Every request begins like that, and leaves it so.
-/

namespace Lox

theorem le_nextId (source : String) (nextId : NodeId) : nextId ≤ (analyze source nextId).nextId := (parse_spans source nextId).le

theorem Checked.table_get?_of_not_mem {source : String} {nextId : NodeId} {c : Checked}
    (h : (analyze source nextId).checked = some c) {j : NodeId} (hj : j < nextId ∨ (analyze source nextId).nextId ≤ j) :
    c.table.get? j = none := by
  obtain ⟨-, he, ht⟩ := of_analyze h
  rw [ht, resolveProgram_table he]
  refine BindingTable.get?_enterAll_of_not_mem _ fun hm => ?_
  have hspan := (Checked.spans h).mem hm
  exact hj.elim (Nat.not_lt.mpr hspan.1) (Nat.not_le.mpr hspan.2)

namespace World

variable {w : World} {m m₀ : Machine} {n : Nat} {F : Error → Prop}

/-! ## Programs -/

theorem SeesStmts.mem : ∀ {sts : List Stmt}, w.SeesStmts sts [] → ∀ st ∈ sts, w.SeesStmt st []
  | _ :: _, h, _, .head _ => h.first
  | _ :: _, h, _, .tail _ hm => SeesStmts.mem h.rest _ hm

theorem Ends.executeEach : ∀ {sts : List Stmt} {m : Machine}, w.At m [] → (∀ st ∈ sts, w.SeesStmt st []) →
    (∀ before st after m', sts = before ++ st :: after → Eval.executeEach n before m = .done () m' →
      w.Covers ⟨n, .stmt st, m'⟩ ∧ ∀ e, Moment.Blames ⟨n, .stmt st, m'⟩ e → F e) →
    w.Ends m F (fun _ _ => True) (Eval.executeEach n sts m)
  | [], _, hat, _, _ => Ends.pure hat.ready trivial
  | st :: sts, m, hat, hsee, hroot => by
    obtain ⟨hcov, hf⟩ := hroot [] st sts m rfl rfl
    have hst := w.sound n (.stmt st) m [] hcov ⟨hat, nofun, hsee st (.head _)⟩
    rw [Eval.executeEach]
    refine (hst.imp hf fun _ _ _ _ _ => trivial).bind fun flow m' hm' hc _ => ?_
    refine Ends.executeEach (hat.next hc) (fun st hst => hsee st (.tail _ hst)) fun before st' after m'' heq hm'' => ?_
    refine hroot (st :: before) st' after m'' (by rw [heq]; rfl) ?_
    have hm' : Eval.execute n st m = .done flow m' := hm'
    rw [Eval.executeEach, Run.bind_apply, hm']
    exact hm''

theorem Ends.flushing {α : Type} {Q : α → Machine → Prop} {body : Eval α} (h : w.Ends m F Q (body m))
    (hf : F (.output .flushFailed)) : w.Ends m F Q (Eval.flushing body m) := by
  unfold Eval.flushing
  cases hb : body m with
  | exhausted => trivial
  | failed e m' =>
    rw [hb] at h
    dsimp only
    split
    · exact ⟨h.1, hf⟩
    · exact h
  | done a m' =>
    rw [hb] at h
    dsimp only
    split
    · exact ⟨h.1, hf⟩
    · exact h

end World

/-! ## Requests -/

namespace Request

theorem machine_store (r : Request) (s : Session) : (r.machine s).store = s.machine.store := by
  unfold Request.machine
  split
  · split <;> rfl
  · rfl

theorem machine_env (r : Request) (s : Session) : (r.machine s).env = s.machine.env := by
  unfold Request.machine
  split
  · split <;> rfl
  · rfl

theorem interpret_eq {s : Session} {fuel : Nat} {source : String} {c : Checked}
    (hc : (analyze source s.nextId).checked = some c) : Eval.interpret fuel c.program c.table s.machine =
      Eval.flushing (Eval.executeEach fuel c.program) ((run fuel source).machine s) := by
  simp only [Request.machine, hc]
  rfl

end Request

/-- The session is ready for the next request. -/
structure History.Ready (h : History) : Prop where
  machine : (Past.world h.past).MachineReady h.session.machine
  global : (Past.world h.past).Models h.session.machine.store h.session.machine.env []
  old : ∀ o, (Past.world h.past).known o → o.id < h.session.nextId
  free : ∀ j, h.session.nextId ≤ j → h.session.machine.bindings.get? j = none
  given : ∀ v ∈ h.given, (Past.world h.past).ValueReady h.session.machine.store v

/-- What a request gives: its machine continues the one on which the evaluation began, its values can be kept, and no error
stops it but one that it may end in. -/
structure History.Answers (h : History) (r : Request) (a : Answer) : Prop where
  continues : (h.worldWith r).Continues (r.machine h.session) a.session.machine
  nextId : a.session.nextId = r.nextId h.session
  values : ∀ v ∈ a.values, (h.worldWith r).ValueReady a.session.machine.store v
  blames : ∀ e ∈ a.errors, r.Blames h.session e

theorem History.known_iff {h : History} {r : Request} {o : Occurrence} :
    (h.worldWith r).known o ↔ o ∈ r.occurrences h.session ∨ (Past.world h.past).known o := by
  simp [worldWith, Past.world]

namespace History.Ready

variable {h : History} {r : Request} {m : Machine}

theorem initialGlobals_get? {x : String} {v : Value} (h : initialGlobals.get? x = some v) : ∃ fn, v = .native fn := by
  simp only [initialGlobals, Native.all, List.foldl_cons, List.foldl_nil, Dict.get?_insert] at h
  repeat
    split at h
    · cases h; exact ⟨_, rfl⟩
  cases h

theorem start (input : Input) (output : Sink) (clock : Nat) : (History.start input output clock).Ready where
  machine := by
    refine ⟨⟨fun f x v hv => ?_, fun i x v hv => ?_, fun f hf => .inl (Nat.lt_one_iff.mp hf)⟩, fun o ⟨p, hp, _⟩ => by cases hp⟩
    · have hv : (Store.empty.extend initialGlobals []).2.var? f x = some v := hv
      rw [Store.var?_extend] at hv
      split at hv
      · obtain ⟨fn, rfl⟩ := initialGlobals_get? hv
        trivial
      · simp [Store.var?, Store.frame?, Store.empty] at hv
    · simp [Store.field?, History.start, Session.start, Machine.start, Store.extend, Store.empty] at hv
  global := .global Nat.one_pos
  old o := fun ⟨p, hp, _⟩ => by cases hp
  free j _ := rfl
  given v hv := by cases hv

theorem offers (hr : h.Ready) {v : Value} (hv : h.Offers v) : (Past.world h.past).ValueReady h.session.machine.store v := by
  induction hv with
  | nil => trivial
  | bool => trivial
  | number => trivial
  | string => trivial
  | native => trivial
  | given hv => exact hr.given _ hv
  | var hv => exact hr.machine.store.vars _ _ _ hv
  | field hv => exact hr.machine.store.fields _ _ _ hv
  | cls _ ih => exact ih
  | superclass _ hc ih =>
    have ih : World.ClassReady _ _ _ := ih
    exact fun layer hl => ih layer (.tail _ (by rw [hc]; exact hl))
  | static _ hf ih => exact World.ClassReady.static ih hf
  | receiver _ ih => exact ih.1

theorem begun_table (hr : h.Ready) (r : Request) :
    (∀ o, (h.worldWith r).known o → (r.machine h.session).bindings.get? o.id = o.depth? ∧ o.id < r.nextId h.session) ∧
      ∀ j, r.nextId h.session ≤ j → (r.machine h.session).bindings.get? j = none := by
  have same : r.occurrences h.session = [] → ∀ o, (h.worldWith r).known o →
      h.session.machine.bindings.get? o.id = o.depth? ∧ o.id < h.session.nextId := by
    intro hnil o ho
    rw [known_iff, hnil] at ho
    have ho := ho.resolve_left List.not_mem_nil
    exact ⟨hr.machine.table o ho, hr.old o ho⟩
  cases r with
  | call => exact ⟨same rfl, hr.free⟩
  | run fuel source =>
    have hle := le_nextId source h.session.nextId
    cases hc : (analyze source h.session.nextId).checked with
    | none =>
      have same := same (by simp [Request.occurrences, hc])
      simp only [Request.machine, Request.nextId, hc]
      exact ⟨fun o ho => ⟨(same o ho).1, Nat.lt_of_lt_of_le (same o ho).2 hle⟩, fun j hj => hr.free j (Nat.le_trans hle hj)⟩
    | some c =>
      simp only [Request.machine, Request.nextId, hc, BindingTable.get?_merge]
      refine ⟨fun o ho => ?_, fun j hj => ?_⟩
      · rcases known_iff.mp ho with ho | ho
        · simp only [Request.occurrences, hc] at ho
          have hspan := (Checked.spans hc).mem (List.mem_map_of_mem ho)
          rw [Checked.table_get? hc ho, hr.free _ hspan.1, Option.or_none]
          exact ⟨rfl, hspan.2⟩
        · have hlt := hr.old o ho
          rw [Checked.table_get?_of_not_mem hc (.inl hlt), hr.machine.table o ho, Option.none_or]
          exact ⟨rfl, Nat.lt_of_lt_of_le hlt hle⟩
      · rw [Checked.table_get?_of_not_mem hc (.inr hj), hr.free j (Nat.le_trans hle hj)]
        rfl

theorem begun (hr : h.Ready) (r : Request) : (h.worldWith r).At (r.machine h.session) [] := by
  have hw : (Past.world h.past).Within (h.worldWith r) := Past.within _ _
  refine ⟨⟨?_, fun o ho => ((hr.begun_table r).1 o ho).1⟩, ?_⟩
  · rw [Request.machine_store]
    exact hr.machine.store.mono hw
  · rw [Request.machine_store, Request.machine_env]
    exact hr.global.mono hw

/-- The session is ready again after a request whose machine continues the one on which the evaluation began. -/
theorem after (hr : h.Ready) {a : Answer} (hans : h.Answers r a) : (h.after r a).Ready where
  machine := hans.continues.ready
  global := ((hr.begun r).next hans.continues).models
  old o ho := by
    change o.id < a.session.nextId
    rw [hans.nextId]
    exact ((hr.begun_table r).1 o ho).2
  free j hj := by
    change a.session.machine.bindings.get? j = none
    rw [hans.continues.bindings]
    exact (hr.begun_table r).2 j (hans.nextId ▸ hj)
  given v hm := by
    rcases List.mem_append.mp hm with hm | hm
    · exact hans.values v hm
    · have hg := hans.continues.grows
      rw [Request.machine_store] at hg
      exact ((hr.given v hm).mono (Past.within _ _)).grow hg

/-! ## Evaluations of requests -/

theorem sees {fuel : Nat} {source : String} {c : Checked} (hc : (analyze source h.session.nextId).checked = some c) :
    ∀ st ∈ c.program, (h.worldWith (.run fuel source)).SeesStmt st [] := by
  refine World.SeesStmts.mem ⟨(Checked.accepted hc).proper, fun o ho => known_iff.mpr (.inl ?_)⟩
  simp only [Request.occurrences, hc]
  exact ho

theorem prefix_ends (hr : h.Ready) (fuel : Nat) {source : String} {c : Checked}
    (hc : (analyze source h.session.nextId).checked = some c) {before after : List Stmt} (hprog : c.program = before ++ after) :
    (h.worldWith (.run fuel source)).Ends ((Request.run fuel source).machine h.session)
      ((Request.run fuel source).Blames h.session) (fun _ _ => True)
      (Eval.executeEach fuel before ((Request.run fuel source).machine h.session)) := by
  refine World.Ends.executeEach (hr.begun _) (fun st hst => sees hc st (by rw [hprog]; exact List.mem_append_left _ hst)) ?_
  intro before' st after' m heq hm
  have hprog' : c.program = before' ++ st :: (after' ++ after) := by simp [hprog, heq]
  have hb : (Request.run fuel source).Begins h.session ⟨fuel, .stmt st, m⟩ := .statement hc hprog' hm
  exact ⟨Past.covers hb, fun e he => he.begins hb⟩

theorem begins (hr : h.Ready) (ha : h.Allows r) {x : Moment} (hb : r.Begins h.session x) :
    ∃ Γ, x.activity.Ready (h.worldWith r) Γ x.machine := by
  cases r with
  | run fuel source =>
    obtain ⟨hc, hprog, hm⟩ := hb
    obtain ⟨hcont, -⟩ := (hr.prefix_ends fuel hc hprog).of_done hm
    exact ⟨[], (hr.begun _).next hcont, nofun, sees hc _ (by simp [hprog])⟩
  | call fuel callee arguments line =>
    cases hb
    have hw := Past.within (h.session, .call fuel callee arguments line) h.past
    exact ⟨[], (hr.begun _).ready, (hr.offers ha.1).mono hw, fun v hv => (hr.offers (ha.2 v hv)).mono hw⟩

theorem answer (hr : h.Ready) (ha : h.Allows r) {a : Answer} (hans : h.session.answer? r = some a) : h.Answers r a := by
  cases r with
  | call fuel callee arguments line =>
    have hb : (Request.call fuel callee arguments line).Begins h.session ⟨fuel, .call callee arguments line, h.session.machine⟩ :=
      .call
    obtain ⟨Γ, hready⟩ := hr.begins ha hb
    have hends : World.Ends _ _ _ _ (Eval.call fuel callee arguments line h.session.machine) :=
      World.sound _ fuel (.call callee arguments line) h.session.machine Γ (Past.covers hb) hready
    simp only [Session.answer?, Session.call] at hans
    cases ho : Eval.call fuel callee arguments line h.session.machine with
    | exhausted => rw [ho] at hans; cases hans
    | done v m =>
      rw [ho] at hans hends
      cases hans
      refine ⟨hends.1, rfl, fun u hu => ?_, fun _ he => absurd he List.not_mem_nil⟩
      obtain rfl := List.mem_singleton.mp hu
      exact hends.2
    | failed e m =>
      rw [ho] at hans hends
      cases hans
      refine ⟨hends.1, rfl, fun _ hv => absurd hv List.not_mem_nil, fun e' he => ?_⟩
      obtain rfl := List.mem_singleton.mp he
      exact hends.2.begins hb
  | run fuel source =>
    cases hc : (analyze source h.session.nextId).checked with
    | none =>
      simp only [Session.answer?, Session.run, hc] at hans
      cases hans
      refine ⟨?_, rfl, fun _ hv => absurd hv List.not_mem_nil, fun _ he => absurd he List.not_mem_nil⟩
      simp only [Request.machine, hc]
      have hready := (hr.begun (.run fuel source)).ready
      simp only [Request.machine, hc] at hready
      exact .refl hready
    | some c =>
      have hends := (hr.prefix_ends fuel hc (List.append_nil _).symm).flushing ⟨rfl, nofun⟩
      simp only [Session.answer?, Session.run, hc, Request.interpret_eq hc] at hans
      cases ho : Eval.flushing (Eval.executeEach fuel c.program) ((Request.run fuel source).machine h.session) with
      | exhausted => rw [ho] at hans; cases hans
      | done v m =>
        rw [ho] at hans hends
        cases hans
        exact ⟨hends.1, rfl, fun _ hv => absurd hv List.not_mem_nil, fun _ he => absurd he List.not_mem_nil⟩
      | failed e m =>
        rw [ho] at hans hends
        cases hans
        refine ⟨hends.1, rfl, fun _ hv => absurd hv List.not_mem_nil, fun e' he => ?_⟩
        obtain rfl := List.mem_singleton.mp he
        exact hends.2

end History.Ready

theorem History.Possible.ready {h : History} (hp : h.Possible) : h.Ready := by
  induction hp with
  | start => exact .start _ _ _
  | next _ ha hans ih => exact ih.after (ih.answer ha hans)
  | between _ _ _ _ ih => exact ⟨⟨ih.machine.store, ih.machine.table⟩, ih.global, ih.old, ih.free, ih.given⟩

end Lox
