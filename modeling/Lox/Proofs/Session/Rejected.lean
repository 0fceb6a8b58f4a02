import Lox.Proofs.Session.Renumbered

/-!
# Rejected programs

A program with static errors leaves the session's machine as it is. Only identities are used up: in the session as it
goes on there is a gap in them, and nobody can tell.
-/

namespace Lox

/-! ## What is there before the gap -/

/-- There is no code yet. -/
theorem initialGlobals_recoded (ρ : Recoding) : initialGlobals.map (Value.recoded ρ) = initialGlobals := by
  have fold : ∀ (fns : List Native) (frame : Frame), frame.map (Value.recoded ρ) = frame →
      Dict.map (Value.recoded ρ) (fns.foldl (fun frame fn => frame.insert fn.name (.native fn)) frame) =
        fns.foldl (fun frame fn => frame.insert fn.name (.native fn)) frame := by
    intro fns
    induction fns with
    | nil => exact fun frame hf => hf
    | cons fn fns ih =>
      refine fun frame hf => ih (frame.insert fn.name (.native fn)) ?_
      have hinsert := Dict.insert_map (Value.recoded ρ) frame fn.name (.native fn)
      rw [hf] at hinsert
      exact hinsert.symm
  exact fold Native.all .empty rfl

/-- No code of the machine or of the values is replaced. -/
structure Machine.Unmoved (ν : Renumbering) (m : Machine) : Prop where
  store : m.store.recoded ν.code = m.store
  bindings : ν.tables m.bindings = m.bindings

theorem Machine.Unmoved.eq {ν : Renumbering} {m : Machine} (h : m.Unmoved ν) : ν.view.machine m = m := by
  have hm : ν.view.machine m = { m with store := m.store.recoded ν.code, bindings := ν.tables m.bindings } := rfl
  rw [hm, h.store, h.bindings]

theorem Machine.Unmoved.of_eq {ν : Renumbering} {m : Machine} (h : ν.view.machine m = m) : m.Unmoved ν :=
  ⟨congrArg Machine.store h, congrArg Machine.bindings h⟩

/-- The session and the values that it has given stay as they are, wherever a gap in the free identities begins. -/
structure History.Unmoved (h : History) : Prop where
  machine : ∀ start width, h.session.nextId ≤ start → h.session.machine.Unmoved (.gap start width)
  given : ∀ start width, h.session.nextId ≤ start → ∀ v ∈ h.given, v.recoded (Renumbering.gap start width).code = v

namespace History.Unmoved

variable {h : History} {r : Request}

theorem start (input : Input) (output : Sink) (clock : Nat) : (History.start input output clock).Unmoved where
  machine start width _ := by
    refine ⟨?_, (Renumbering.gap start width).empty⟩
    change (Store.empty.extend initialGlobals []).2.recoded _ = (Store.empty.extend initialGlobals []).2
    have hextend := Store.empty.extend_recoded (Renumbering.gap start width).code initialGlobals []
    rw [initialGlobals_recoded] at hextend
    have hempty : Store.empty.recoded (Renumbering.gap start width).code = Store.empty := by
      simp [Store.recoded, Store.empty]
    rw [hempty] at hextend
    exact (congrArg Prod.snd hextend).symm
  given _ _ _ := nofun

theorem offers (hu : h.Unmoved) {start : Nat} (width : Nat) (hs : h.session.nextId ≤ start) {v : Value} (hv : h.Offers v) :
    v.recoded (Renumbering.gap start width).code = v := by
  have hstore : h.session.machine.store.recoded (Renumbering.gap start width).code = h.session.machine.store :=
    (hu.machine start width hs).store
  induction hv with
  | nil => rfl
  | bool => rfl
  | number => rfl
  | string => rfl
  | native => rfl
  | given hv => exact hu.given start width hs _ hv
  | @var f x v hv =>
    have hread := h.session.machine.store.var?_recoded (Renumbering.gap start width).code f x
    rw [hstore, hv] at hread
    exact (Option.some.inj hread).symm
  | @field i x v hv =>
    have hread := h.session.machine.store.field?_recoded (Renumbering.gap start width).code i x
    rw [hstore] at hread
    have hsame : h.session.machine.store.field? (i.recoded (Renumbering.gap start width).code) x =
        h.session.machine.store.field? i x := rfl
    rw [hsame, hv] at hread
    exact (Option.some.inj hread).symm
  | cls _ ih => exact congrArg Value.klass (congrArg Instance.cls (Value.object.inj ih))
  | @superclass c layer rest _ hc ih =>
    have hancestors := congrArg Class.ancestors (Value.klass.inj ih)
    have hmap : (c.recoded (Renumbering.gap start width).code).ancestors =
        c.ancestors.map (ClassLayer.recoded (Renumbering.gap start width).code) := rfl
    rw [hmap, hc] at hancestors
    obtain ⟨hlayer, hrest⟩ := List.cons.inj hancestors
    exact congrArg Value.klass (congrArg₂ Class.mk hlayer hrest)
  | @static c x f _ hf ih =>
    have hread := c.static?_recoded (Renumbering.gap start width).code x
    rw [Value.klass.inj ih, hf] at hread
    exact congrArg Value.function (Option.some.inj hread).symm
  | receiver _ ih => exact congrArg Value.object (congrArg BoundMethod.receiver (Value.bound.inj ih))

/-- A program that has been checked has no identity behind its own ones. -/
theorem checked {source : String} {nextId start : NodeId} (width : Nat) {c : Checked}
    (hc : (analyze source nextId).checked = some c) (hs : (analyze source nextId).nextId ≤ start) :
    c.renumbered (.gap start width) = c := by
  obtain ⟨hprogram, -, htable⟩ := of_analyze hc
  have hsame : recodedStmts (Renumbering.gap start width).code c.program = c.program := by
    have hcongr : recodedStmts (Renumbering.gap start width).code c.program = recodedStmts .same c.program := by
      refine recodedStmts_congr _ fun j hj => ?_
      rw [hprogram] at hj
      exact if_pos (Nat.lt_of_lt_of_le ((parse_spans source nextId).mem hj).2 hs)
    rw [hcongr, recodedStmts_same]
  have hresolved := resolveProgram_renumbered (.gap start width) c.program
  rw [hsame] at hresolved
  have htables : (Renumbering.gap start width).tables c.table = c.table := by
    rw [htable]
    exact (congrArg Resolution.table hresolved).symm
  rw [Checked.renumbered, hsame, htables]

/-- The evaluation of a request is the one behind the gap, and so are its results. -/
theorem answer (hu : h.Unmoved) (ha : h.Allows r) {a : Answer} (hans : h.session.answer? r = some a) :
    (h.after r a).Unmoved := by
  cases r with
  | call fuel callee arguments line =>
    have stays : ∀ start width, h.session.nextId ≤ start → Eval.call fuel callee arguments line h.session.machine =
        (Renumbering.gap start width).view.outcome (Value.recoded (Renumbering.gap start width).code)
          (Eval.call fuel callee arguments line h.session.machine) := by
      intro start width hs
      have heval := (Renumbering.gap start width).call fuel callee arguments line h.session.machine
      have harguments : arguments.map (Value.recoded (Renumbering.gap start width).code) = arguments :=
        (List.map_congr_left fun v hv => hu.offers width hs (ha.2 v hv)).trans (List.map_id arguments)
      rw [hu.offers width hs ha.1, harguments, (hu.machine start width hs).eq] at heval
      exact heval
    simp only [Session.answer?, Session.call] at hans
    cases ho : Eval.call fuel callee arguments line h.session.machine with
    | exhausted => rw [ho] at hans; cases hans
    | done v m =>
      rw [ho] at hans stays
      cases hans
      refine ⟨fun start width hs => ?_, fun start width hs => List.forall_mem_cons.mpr ⟨?_, hu.given start width hs⟩⟩
      · exact .of_eq (Outcome.done.inj (stays start width hs)).2.symm
      · exact (Outcome.done.inj (stays start width hs)).1.symm
    | failed e m =>
      rw [ho] at hans stays
      cases hans
      exact ⟨fun start width hs => .of_eq (Outcome.failed.inj (stays start width hs)).2.symm, hu.given⟩
  | run fuel source =>
    have hle := le_nextId source h.session.nextId
    have given : ∀ start width, (analyze source h.session.nextId).nextId ≤ start →
        ∀ v ∈ h.given, v.recoded (Renumbering.gap start width).code = v :=
      fun start width hs => hu.given start width (Nat.le_trans hle hs)
    cases hc : (analyze source h.session.nextId).checked with
    | none =>
      rw [Session.answer?, Session.run_of_unchecked hc] at hans
      cases hans
      exact ⟨fun start width hs => hu.machine start width (Nat.le_trans hle hs), given⟩
    | some c =>
      have stays : ∀ start width, (analyze source h.session.nextId).nextId ≤ start →
          Eval.interpret fuel c.program c.table h.session.machine =
            (Renumbering.gap start width).view.outcome id (Eval.interpret fuel c.program c.table h.session.machine) := by
        intro start width hs
        have heval := (Renumbering.gap start width).interpret fuel c.program c.table h.session.machine
        have hc' := checked width hc hs
        have hprogram : recodedStmts (Renumbering.gap start width).code c.program = c.program := congrArg Checked.program hc'
        have htable : (Renumbering.gap start width).tables c.table = c.table := congrArg Checked.table hc'
        rw [hprogram, htable, (hu.machine start width (Nat.le_trans hle hs)).eq] at heval
        exact heval
      rw [Session.answer?, Session.run_of_checked hc] at hans
      cases ho : Eval.interpret fuel c.program c.table h.session.machine with
      | exhausted => rw [ho] at hans; cases hans
      | done v m =>
        rw [ho] at hans stays
        cases hans
        exact ⟨fun start width hs => .of_eq (Outcome.done.inj (stays start width hs)).2.symm, given⟩
      | failed e m =>
        rw [ho] at hans stays
        cases hans
        exact ⟨fun start width hs => .of_eq (Outcome.failed.inj (stays start width hs)).2.symm, given⟩

end History.Unmoved

theorem History.Possible.unmoved {h : History} (hp : h.Possible) : h.Unmoved := by
  induction hp with
  | start => exact .start _ _ _
  | next _ ha hans ih => exact ih.answer ha hans
  | between _ _ _ _ ih =>
    exact ⟨fun start width hs => ⟨(ih.machine start width hs).store, (ih.machine start width hs).bindings⟩, ih.given⟩

/-! ## Rejected programs -/

/-- What there is to see after a request: the whole report of a run, or what a call ends in with the text of its value, and
what has been written and what is left to be read. -/
structure Sight where
  reply : Report ⊕ Except Error String
  output : Sink
  input : Input

def Sight.of : Reply × Machine → Sight
  | (.ran report, m) => ⟨.inl report, m.output, m.input⟩
  | (.called result, m) => ⟨.inr (result.map Value.text), m.output, m.input⟩

theorem Sight.of_renumbered (ν : Renumbering) (x : Reply × Machine) :
    Sight.of (Prod.map (Reply.recoded ν.code) ν.view.machine x) = Sight.of x := by
  obtain ⟨reply, m⟩ := x
  cases reply with
  | ran report => rfl
  | called result =>
    cases result with
    | error e => rfl
    | ok v =>
      have htext : (v.recoded ν.code).text = v.text := v.text_recoded ν.code
      exact congrArg (fun text => Sight.mk (.inr (.ok text)) m.output m.input) htext

/-- The session `s` is `h` as it would be without its last run. The machine is the same: nothing is written and no input
is read. The identities from the free ones of `h` on are moved up, which are those of no value that the host has. Whatever
is asked later, the replies are the same, and so are the machines but for the identities in their code, which are not to
be seen. -/
structure History.Untraced (h : History) (s : Session) (width : Nat) : Prop where
  nextId : s.nextId = h.session.nextId + width
  machine : s.machine = h.session.machine
  held : ∀ v, h.Offers v → v.recoded (Renumbering.gap h.session.nextId width).code = v
  later : ∀ steps, s.transcript (steps.map (Step.recoded (Renumbering.gap h.session.nextId width).code)) =
    (h.session.transcript steps).map (Prod.map (Reply.recoded (Renumbering.gap h.session.nextId width).code)
      (Renumbering.gap h.session.nextId width).view.machine)
  seen : ∀ steps, (s.transcript (steps.map (Step.recoded (Renumbering.gap h.session.nextId width).code))).map Sight.of =
    (h.session.transcript steps).map Sight.of

/-- A rejected program leaves no trace. -/
theorem rejected_run_leaves_no_trace {h : History} (hp : h.Possible) {fuel : Nat} {source : String} {report : Report}
    {s : Session} (hrun : h.session.run fuel source = some (report, s)) (hreport : report.status = .staticError) :
    h.Untraced s ((analyze source h.session.nextId).nextId - h.session.nextId) := by
  have hle := le_nextId source h.session.nextId
  have hs : s = { h.session with nextId := (analyze source h.session.nextId).nextId } := by
    cases hc : (analyze source h.session.nextId).checked with
    | none => rw [Session.run_of_unchecked hc] at hrun; cases hrun; rfl
    | some c =>
      rw [Session.run_of_checked hc] at hrun
      cases ho : Eval.interpret fuel c.program c.table h.session.machine <;> rw [ho] at hrun <;> cases hrun <;> cases hreport
  have hgap : s = h.session.behindGap h.session.nextId ((analyze source h.session.nextId).nextId - h.session.nextId) := by
    rw [hs, Session.behindGap, (hp.unmoved.machine _ _ (Nat.le_refl _)).eq, Nat.add_sub_cancel' hle]
  have later := fun steps =>
    Session.transcript_behind_gap ((analyze source h.session.nextId).nextId - h.session.nextId) steps (Nat.le_refl h.session.nextId)
  rw [← hgap] at later
  refine ⟨?_, by rw [hs], fun v hv => hp.unmoved.offers _ (Nat.le_refl _) hv, later, fun steps => ?_⟩
  · rw [hs, Nat.add_sub_cancel' hle]
  · rw [later, List.map_map]
    exact List.map_congr_left fun x _ => Sight.of_renumbered _ x

/-- After a function has been declared, a program with a misplaced `return` uses up two identities and is rejected. -/
theorem no_trace_of_misplaced_return :
    let first := Request.run 30 "var a = 1; fun f(x) { return a + x; }"
    ∃ a, (History.start (.ofBytes []) .unlimited 0).session.answer? first = some a ∧
      let h := (History.start (.ofBytes []) .unlimited 0).after first a
      ∃ report s, h.session.run 30 "print f(a); return;" = some (report, s) ∧ report.status = .staticError ∧
        h.Untraced s 2 := by
  intro first
  have hfirst : ((History.start (.ofBytes []) .unlimited 0).session.answer? first).map (·.session.nextId) = some 2 := by
    decide +kernel
  obtain ⟨a, ha, hnext⟩ := Option.map_eq_some_iff.mp hfirst
  refine ⟨a, ha, ?_⟩
  intro h
  have hp : h.Possible := .next .start trivial ha
  have hnext : h.session.nextId = 2 := hnext
  have hc : (analyze "print f(a); return;" h.session.nextId).checked = none := by
    rw [hnext, ← Option.isNone_iff_eq_none]
    decide +kernel
  have hwidth : (analyze "print f(a); return;" h.session.nextId).nextId - h.session.nextId = 2 := by
    rw [hnext]
    decide +kernel
  refine ⟨_, _, Session.run_of_unchecked hc 30, rfl, ?_⟩
  rw [← hwidth]
  exact rejected_run_leaves_no_trace hp (Session.run_of_unchecked hc 30) rfl

end Lox
