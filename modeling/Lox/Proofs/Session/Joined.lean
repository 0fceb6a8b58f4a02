import Lox.Proofs.Evaluation.Enough
import Lox.Proofs.Evaluation.Relined
import Lox.Proofs.Grammar.Joined
import Lox.Proofs.Scope.Joined
import Lox.Proofs.Session.Agreement

/-!
# Two texts in one

A program in two texts, run one after the other, does what it does in one text.
-/

namespace Lox

/-! ## The static phases -/

theorem errors_of_analyze {source : String} {nextId : NodeId} {c : Checked} (h : (analyze source nextId).checked = some c) :
    errorsOf (Item.ofSource source) = [] ∧ (parseProgram (tokensOf (Item.ofSource source)) nextId).errors = [] ∧
      (analyze source nextId).warnings = (resolveProgram c.program).warnings := by
  unfold analyze at h ⊢
  simp only at h ⊢
  split at h
  · rename_i he
    rw [if_pos he]
    split at h
    · rename_i he'
      rw [if_pos he']
      cases h
      have he := List.append_eq_nil_iff.mp (List.isEmpty_iff.mp he)
      exact ⟨he.1, he.2, rfl⟩
    · cases h
  · cases h

theorem names_of_analyze {source : String} {nextId : NodeId} {c : Checked} (h : (analyze source nextId).checked = some c) :
    ProperStmts (fun name => 1 ≤ name.line ∧ name.line ≤ lastLine source) ⊤ c.program := by
  rw [(of_analyze h).1]
  refine (parseProgram_read (fun t ht text hk => ?_) nextId).2
  rw [tokensOf_ofSource] at ht
  rcases List.mem_append.mp ht with ht | ht
  · exact ⟨(mem_tokensIn ht).1, (mem_tokensIn ht).2.1⟩
  · rw [List.mem_singleton.mp ht] at hk
    cases hk

/-- The second text is checked after the first one as in one text with it. -/
theorem analyze_two_texts {first second : String} {nextId : NodeId} {c d : Checked}
    (hc : (analyze first nextId).checked = some c)
    (hd : (analyze second (analyze first nextId).nextId).checked = some d) :
    analyze (first ++ "\n" ++ second) nextId =
      { checked := some { program := c.program ++ relinedStmts (· + lastLine first) d.program, table := c.table.merge d.table }
        errors := []
        warnings := (analyze first nextId).warnings ++
          (analyze second (analyze first nextId).nextId).warnings.map (Warning.relined (· + lastLine first))
        nextId := (analyze second (analyze first nextId).nextId).nextId } := by
  obtain ⟨hlex, hparse, hwarn⟩ := errors_of_analyze hc
  obtain ⟨hlex', hparse', hwarn'⟩ := errors_of_analyze hd
  obtain ⟨hprogram, hscope, htable⟩ := of_analyze hc
  obtain ⟨hprogram', hscope', htable'⟩ := of_analyze hd
  rw [analyze_nextId] at hprogram' hparse'
  have hparsed := parseProgram_two_texts hlex rfl rfl hparse hparse'
  obtain ⟨ht, he, hw⟩ := resolveProgram_two_programs (names_of_analyze hc) (names_of_analyze hd) hscope
  rw [hscope'] at he
  rw [hwarn, hwarn', analyze_nextId second, analyze_nextId first, htable, htable', ← ht, ← hw]
  unfold analyze
  simp only [errorsOf_two_texts hlex hlex', hparsed, ← hprogram, ← hprogram', he, List.append_nil, List.isEmpty_nil,
    if_true, List.map_nil]

/-! ## Runs of checked programs -/

namespace Session

/-- What a run reports and leaves behind when its evaluation has ended. -/
def ended (warnings : List Warning) (nextId : NodeId) : Outcome Machine Error Unit → Option (Report × Session)
  | .done _ machine => some ({ status := .ok, errors := [], warnings }, { machine, nextId })
  | .failed e machine => some ({ status := .runtimeError, errors := [e], warnings }, { machine, nextId })
  | .exhausted => none

theorem run_of_checked {s : Session} {source : String} {c : Checked} (h : (analyze source s.nextId).checked = some c)
    (fuel : Nat) : s.run fuel source = ended (analyze source s.nextId).warnings (analyze source s.nextId).nextId
      (Eval.interpret fuel c.program c.table s.machine) := by
  simp only [run, h]
  cases Eval.interpret fuel c.program c.table s.machine <;> rfl

theorem run_of_unchecked {s : Session} {source : String} (h : (analyze source s.nextId).checked = none) (fuel : Nat) :
    s.run fuel source = some (⟨.staticError, (analyze source s.nextId).errors, (analyze source s.nextId).warnings⟩,
      { s with nextId := (analyze source s.nextId).nextId }) := by
  simp only [run, h]

/-- A run that is reported well has evaluated a checked program to its end. -/
theorem of_run_ok {s s' : Session} {source : String} {fuel : Nat} {report : Report}
    (h : s.run fuel source = some (report, s')) (hok : report.status = .ok) :
    ∃ c, (analyze source s.nextId).checked = some c ∧
      Eval.interpret fuel c.program c.table s.machine = .done () s'.machine ∧
      s'.nextId = (analyze source s.nextId).nextId ∧ report.warnings = (analyze source s.nextId).warnings := by
  cases hc : (analyze source s.nextId).checked with
  | none => rw [run_of_unchecked hc] at h; cases h; cases hok
  | some c =>
    rw [run_of_checked hc] at h
    refine ⟨c, rfl, ?_⟩
    cases ho : Eval.interpret fuel c.program c.table s.machine with
    | done a m => rw [ho] at h; cases h; exact ⟨rfl, rfl, rfl⟩
    | failed e m => rw [ho] at h; cases h; cases hok
    | exhausted => rw [ho] at h; cases h

end Session

namespace Eval

theorem interpret_apply (fuel : Nat) (program : List Stmt) (table : BindingTable) (m : Machine) :
    interpret fuel program table m = flushing (executeEach fuel program) { m with bindings := m.bindings.merge table } := rfl

theorem flushing_congr {α : Type} {body body' : Eval α} {m m' : Machine} (h : body m = body' m') :
    flushing body m = flushing body' m' := by
  unfold flushing
  rw [h]

theorem of_flushing_done {α : Type} {body : Eval α} {a : α} {m m' : Machine} (h : flushing body m = .done a m') :
    body m = .done a m' := by
  unfold flushing at h
  cases hb : body m with
  | exhausted => rw [hb] at h; cases h
  | failed e m₁ => rw [hb] at h; dsimp only at h; split at h <;> cases h
  | done b m₁ =>
    rw [hb] at h
    dsimp only at h
    split at h
    · cases h
    · exact h

theorem executeEach_append (fuel : Nat) : ∀ (sts more : List Stmt) (m : Machine),
    executeEach fuel (sts ++ more) m = (do executeEach fuel sts; executeEach fuel more) m
  | [], _, _ => rfl
  | st :: sts, more, m => by
    rw [List.cons_append, executeEach, executeEach, Run.bind_apply, Run.bind_apply, Run.bind_apply]
    cases execute fuel st m with
    | done flow m' => exact executeEach_append fuel sts more m'
    | failed e m' => rfl
    | exhausted => rfl

end Eval

theorem View.Shows.flushing {v : View} {body body' : Eval Unit} {m : Machine} (h : v.Shows id body body' m) :
    v.Shows id (Eval.flushing body) (Eval.flushing body') m := by
  unfold View.Shows Eval.flushing
  rcases h with h | ⟨hs, h⟩
  · rw [h]
    cases body m with
    | exhausted => exact .inl rfl
    | done a m' =>
      have ho : (v.machine m').output = m'.output := rfl
      simp only [View.outcome, ho]
      split <;> exact .inl rfl
    | failed e m' =>
      have ho : (v.machine m').output = m'.output := rfl
      simp only [View.outcome, ho]
      split <;> exact .inl rfl
  · rw [h]
    exact .inr ⟨hs, rfl⟩

/-! ## More fuel -/

/-- A run that has come to its end does not depend on its fuel. -/
theorem Session.run_of_le {s : Session} {source : String} {fuel fuel' : Nat} {result : Report × Session}
    (h : s.run fuel source = some result) (hle : fuel ≤ fuel') : s.run fuel' source = some result := by
  cases hc : (analyze source s.nextId).checked with
  | none => rw [run_of_unchecked hc] at h ⊢; exact h
  | some c =>
    let v : View := ⟨.same, id, fuel' - fuel⟩
    let m : Machine := { s.machine with bindings := s.machine.bindings.merge c.table }
    have hs : v.Shows id (Eval.flushing (Eval.executeEach fuel c.program))
        (Eval.flushing (Eval.executeEach (fuel + v.spare) (recodedStmts .same c.program))) m :=
      (View.executeEach fun _ _ _ _ _ _ => View.suits_of_tables (fun _ _ => rfl) _).flushing
    rw [run_of_checked hc, Eval.interpret_apply] at h
    have heq := hs.eq_of_ne (.inr fun hx => by rw [hx] at h; cases h)
    have hm : v.machine m = m := m.recoded_same
    rw [View.outcome_of_fuel, hm, recodedStmts_same, Nat.add_sub_cancel' hle] at heq
    rw [run_of_checked hc, Eval.interpret_apply, heq]
    exact h

/-! ## Two runs and one -/

/-- A mark for the lines of all earlier code. -/
def evenLine (line : Nat) : Nat := 2 * line

/-- A mark for the lines of a program. -/
def oddLine (line : Nat) : Nat := 2 * line + 1

/-- The line without its mark. -/
def halfLine (line : Nat) : Nat := line / 2

/-- The line without its mark, where the program stands below a text. -/
def lineBelow (height line : Nat) : Nat := if line % 2 = 0 then line / 2 else line / 2 + height

/-- Evaluates a program with marked lines, so that they can be told from those of earlier code. -/
def evaluateMarked (fuel : Nat) (c : Checked) (m : Machine) : Outcome Machine Error Unit :=
  Eval.interpret fuel (relinedStmts oddLine c.program) c.table (m.relined evenLine)

def Outcome.relined (f : Nat → Nat) : Outcome Machine Error Unit → Outcome Machine Error Unit
  | .done _ m => .done () (m.relined f)
  | .failed e m => .failed (e.relined f) (m.relined f)
  | .exhausted => .exhausted

theorem evaluateMarked_relined (f : Nat → Nat) (hf : f ∘ evenLine = id) (fuel : Nat) (c : Checked) (m : Machine) :
    (evaluateMarked fuel c m).relined f =
      Eval.interpret fuel (relinedStmts (f ∘ oddLine) c.program) c.table m := by
  let v : View := ⟨⟨f, id⟩, id, 0⟩
  let begun : Machine := { m.relined evenLine with bindings := m.bindings.merge c.table }
  have hs : v.Shows id (Eval.flushing (Eval.executeEach fuel (relinedStmts oddLine c.program)))
      (Eval.flushing (Eval.executeEach (fuel + v.spare) (recodedStmts v.code (relinedStmts oddLine c.program)))) begun :=
    (View.executeEach fun _ _ _ _ _ _ => View.suits_of_tables (fun _ _ => rfl) _).flushing
  have relined : ∀ m : Machine, v.machine m = m.relined f := fun m => (m.relined_eq f).symm
  have hm : v.machine begun = { m with bindings := m.bindings.merge c.table } := by
    have h := Machine.relined_comp evenLine f { m with bindings := m.bindings.merge c.table }
    rw [hf, Machine.relined_id] at h
    exact (relined begun).trans h
  have heq := hs.eq_of_ne (.inl rfl)
  rw [hm, ← relinedStmts_eq, relinedStmts_comp] at heq
  rw [Eval.interpret_apply]
  refine Eq.trans ?_ heq.symm
  have hmarked : evaluateMarked fuel c m = Eval.flushing (Eval.executeEach fuel (relinedStmts oddLine c.program)) begun := rfl
  rw [hmarked]
  cases Eval.flushing (Eval.executeEach fuel (relinedStmts oddLine c.program)) begun with
  | done a m => exact congrArg (Outcome.done a) (relined m).symm
  | failed e m => exact congrArg (Outcome.failed _) (relined m).symm
  | exhausted => rfl

/-- The text alone and below another one: in everything but lines the results are the same. -/
structure Session.SameButLines (height : Nat) (earlier : List Warning) (alone joint : Report × Session) : Prop where
  status : joint.1.status = alone.1.status
  warnings : joint.1.warnings = earlier ++ alone.1.warnings.map (Warning.relined (· + height))
  output : joint.2.machine.output = alone.2.machine.output
  input : joint.2.machine.input = alone.2.machine.input
  bindings : joint.2.machine.bindings = alone.2.machine.bindings
  env : joint.2.machine.env = alone.2.machine.env
  depth : joint.2.machine.depth = alone.2.machine.depth
  clock : joint.2.machine.clock = alone.2.machine.clock
  nextId : joint.2.nextId = alone.2.nextId

theorem Session.ended_on_other_lines (height : Nat) (earlier warnings : List Warning) (nextId : NodeId) (f g : Nat → Nat)
    (o : Outcome Machine Error Unit) : Option.Rel (SameButLines height earlier) (ended warnings nextId (o.relined f))
      (ended (earlier ++ warnings.map (Warning.relined (· + height))) nextId (o.relined g)) := by
  cases o with
  | done a m => exact .some ⟨rfl, rfl, rfl, rfl, rfl, rfl, rfl, rfl, rfl⟩
  | failed e m => exact .some ⟨rfl, rfl, rfl, rfl, rfl, rfl, rfl, rfl, rfl⟩
  | exhausted => exact .none

variable {h : History}

/-- In a possible history the view with one more table suits all statements of a program that runs
before that table's program. -/
theorem History.Possible.suits (hp : h.Possible) {fuel : Nat} {first second : String} {d : Checked}
    (hd : (analyze second (analyze first h.session.nextId).nextId).checked = some d) {x : Moment}
    (hx : (Request.run fuel first).Begins h.session x) (spare : Nat) : (View.mk .same (·.merge d.table) spare).Suits x := by
  intro y node name m hreach hacc
  have hallows : h.Allows (.run fuel first) := trivial
  obtain ⟨scopes, hknown, -⟩ := (evaluation_agrees_with_scopes hp hallows).accesses y node name m ⟨x, hx, hreach⟩ hacc
  have hold : node < (analyze first h.session.nextId).nextId := ((hp.ready.begun_table (.run fuel first)).1 _ hknown).2
  change (m.bindings.merge d.table).get? node = m.bindings.get? node
  rw [BindingTable.get?_merge, Checked.table_get?_of_not_mem hd (.inl hold), Option.none_or]

/-- Two texts in one are evaluated as the second one below the first, after that. -/
theorem interpret_two_texts (hp : h.Possible) {fuel f : Nat} {first second : String} {s : Session} {c d : Checked}
    (hc : (analyze first h.session.nextId).checked = some c)
    (hd : (analyze second (analyze first h.session.nextId).nextId).checked = some d)
    (hrun : Eval.interpret fuel c.program c.table h.session.machine = .done () s.machine) (hf : fuel ≤ f) :
    Eval.interpret f (c.program ++ relinedStmts (· + lastLine first) d.program) (c.table.merge d.table) h.session.machine =
      Eval.interpret f (relinedStmts (· + lastLine first) d.program) d.table s.machine := by
  let v : View := ⟨.same, (·.merge d.table), f - fuel⟩
  let begun : Machine := { h.session.machine with bindings := h.session.machine.bindings.merge c.table }
  have hbegun : (Request.run fuel first).machine h.session = begun := by simp only [Request.machine, hc, begun]
  have hdone : Eval.executeEach fuel c.program begun = .done () s.machine := Eval.of_flushing_done hrun
  have hshown : v.Shows id (Eval.executeEach fuel c.program)
      (Eval.executeEach (fuel + v.spare) (recodedStmts .same c.program)) begun := by
    refine View.executeEach fun before st after m heq hm => ?_
    rw [← hbegun] at hm
    exact hp.suits hd (.statement hc heq hm) _
  have hends : Eval.executeEach fuel c.program begun ≠ .exhausted := fun he => by cases hdone.symm.trans he
  have heq := hshown.eq_of_ne (.inr hends)
  rw [hdone, recodedStmts_same, Nat.add_sub_cancel' hf] at heq
  have hmachine : ∀ m : Machine, v.machine m = { m with bindings := m.bindings.merge d.table } := fun m => by
    rw [View.machine, Machine.recoded_same]
  rw [Eval.interpret_apply, Eval.interpret_apply]
  refine Eval.flushing_congr ?_
  rw [Eval.executeEach_append, ← hmachine]
  have hstart : v.machine begun =
      { h.session.machine with bindings := h.session.machine.bindings.merge (c.table.merge d.table) } := by
    rw [hmachine, ← BindingTable.merge_assoc]
  rw [← hstart, Run.bind_apply, heq]
  rfl

theorem halfLine_even : halfLine ∘ evenLine = id := by
  funext line
  simp [halfLine, evenLine]

theorem halfLine_odd : halfLine ∘ oddLine = id := by
  funext line
  change (2 * line + 1) / 2 = line
  omega

theorem lineBelow_even (height : Nat) : lineBelow height ∘ evenLine = id := by
  funext line
  simp [lineBelow, evenLine]

theorem lineBelow_odd (height : Nat) : lineBelow height ∘ oddLine = (· + height) := by
  funext line
  change (if (2 * line + 1) % 2 = 0 then _ else (2 * line + 1) / 2 + height) = line + height
  rw [if_neg (by omega)]
  omega

/-- After the first text has left the session `s`, the second one alone ends like both in one text: with
the same status, output, input, bindings and next identity, with the warnings of both, and with the
same store and the same error. The lines of the second text are as much larger as the first one has
lines, and no other line is. -/
structure History.Splits (h : History) (first second : String) (report : Report) (s : Session) (d : Checked) (fuel : Nat) :
    Prop where
  same : Option.Rel (Session.SameButLines (lastLine first) report.warnings) (s.run fuel second)
    (h.session.run fuel (first ++ "\n" ++ second))
  alone : s.run fuel second = Session.ended (analyze second s.nextId).warnings (analyze second s.nextId).nextId
    ((evaluateMarked fuel d s.machine).relined halfLine)
  joint : h.session.run fuel (first ++ "\n" ++ second) = Session.ended
    (report.warnings ++ (analyze second s.nextId).warnings.map (Warning.relined (· + lastLine first)))
    (analyze second s.nextId).nextId ((evaluateMarked fuel d s.machine).relined (lineBelow (lastLine first)))

/-- Splitting a program over two runs changes nothing, whatever the second run ends in. -/
theorem two_texts_in_one (hp : h.Possible) {fuel fuel' : Nat} {first second : String} {report : Report} {s : Session}
    {d : Checked} (hfirst : h.session.run fuel first = some (report, s)) (hok : report.status = .ok)
    (hsecond : (analyze second s.nextId).checked = some d) (hf : fuel ≤ fuel') :
    h.Splits first second report s d fuel' := by
  obtain ⟨c, hc, hrun, hnext, hwarnings⟩ := Session.of_run_ok hfirst hok
  rw [hnext] at hsecond
  have hjoint := analyze_two_texts hc hsecond
  have halone : s.run fuel' second = Session.ended (analyze second s.nextId).warnings (analyze second s.nextId).nextId
      ((evaluateMarked fuel' d s.machine).relined halfLine) := by
    rw [evaluateMarked_relined halfLine halfLine_even, halfLine_odd, relinedStmts_id]
    exact Session.run_of_checked (by rw [hnext]; exact hsecond) fuel'
  have hboth : h.session.run fuel' (first ++ "\n" ++ second) = Session.ended
      (report.warnings ++ (analyze second s.nextId).warnings.map (Warning.relined (· + lastLine first)))
      (analyze second s.nextId).nextId ((evaluateMarked fuel' d s.machine).relined (lineBelow (lastLine first))) := by
    rw [evaluateMarked_relined _ (lineBelow_even _), lineBelow_odd, ← interpret_two_texts hp hc hsecond hrun hf, hwarnings,
      hnext]
    rw [Session.run_of_checked (congrArg Analysis.checked hjoint), hjoint]
  refine ⟨?_, halone, hboth⟩
  rw [halone, hboth]
  exact Session.ended_on_other_lines ..

/-- The second text calls a function of the first one, which fails on a line of the first one. -/
theorem two_texts_in_one_of_call :
    let h := History.start (.ofBytes []) .unlimited 0
    ∃ report s d, h.session.run 20 "fun f(a): -a;" = some (report, s) ∧ report.status = .ok ∧
      (analyze "print f(1);\nf(nil);" s.nextId).checked = some d ∧
      h.Splits "fun f(a): -a;" "print f(1);\nf(nil);" report s d 30 := by
  intro h
  have hall : ((h.session.run 20 "fun f(a): -a;").bind fun p =>
      if p.1.status = .ok then (analyze "print f(1);\nf(nil);" p.2.nextId).checked else none).isSome = true := by
    decide +kernel
  obtain ⟨d, hall⟩ := Option.isSome_iff_exists.mp hall
  obtain ⟨⟨report, s⟩, hfirst, hall⟩ := Option.bind_eq_some_iff.mp hall
  dsimp only at hall
  split at hall
  · rename_i hok
    exact ⟨report, s, d, hfirst, hok, hall, two_texts_in_one .start hfirst hok hall (by decide)⟩
  · cases hall

end Lox
