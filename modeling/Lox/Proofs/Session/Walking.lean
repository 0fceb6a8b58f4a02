import Lox.Proofs.Session.Owned
import Lox.Proofs.Evaluation.Walking

/-!
# Sessions without resolved distances

A session whose variables are looked up by walking from frame to frame, and not by the binding table. Where no accepted
source declares a name too late, nobody can tell it from the session that there is.
-/

namespace Lox

/-! ## Sessions with another access to variables -/

namespace Session

variable (s : Session)

def runBy (access : Access) (fuel : Nat) (source : String) : Option (Report × Session) :=
  let a := analyze source s.nextId
  match a.checked with
  | none => some ({ status := .staticError, errors := a.errors, warnings := a.warnings }, { s with nextId := a.nextId })
  | some c =>
    match Eval.interpretBy access fuel c.program c.table s.machine with
    | .done _ machine =>
      some ({ status := .ok, errors := [], warnings := a.warnings }, { machine, nextId := a.nextId })
    | .failed e machine =>
      some ({ status := .runtimeError, errors := [e], warnings := a.warnings }, { machine, nextId := a.nextId })
    | .exhausted => none

def callBy (access : Access) (fuel : Nat) (callee : Value) (arguments : List Value) (line : Nat) :
    Option (Except Error Value × Session) :=
  match (Activity.call callee arguments line).runBy access fuel s.machine with
  | .done v machine => some (.ok v, { s with machine })
  | .failed e machine => some (.error e, { s with machine })
  | .exhausted => none

def answerBy (access : Access) : Request → Option Answer
  | .run fuel source => (s.runBy access fuel source).map fun (report, s') =>
    ⟨if report.status = .runtimeError then report.errors else [], [], s'⟩
  | .call fuel callee arguments line => (s.callBy access fuel callee arguments line).map fun
    | (.ok v, s') => ⟨[], [v], s'⟩
    | (.error e, s') => ⟨[e], [], s'⟩

end Session

/-- The histories that come about with that access to variables. -/
inductive History.PossibleBy (access : Access) : History → Prop where
  | start {input output clock} : PossibleBy access (.start input output clock)
  | next {h r a} : PossibleBy access h → h.Allows r → h.session.answerBy access r = some a → PossibleBy access (h.after r a)
  | between {h} (input output clock) : PossibleBy access h → PossibleBy access (h.between input output clock)

/-! ## Where the access suits -/

/-- The access does what the binding table says, wherever the request accesses a variable. -/
def Access.SuitsRequest (access : Access) (s : Session) (r : Request) : Prop := ∀ x, r.Begins s x → access.Suits x

/-- The request gives the same, and so does all that is evaluated in the course of it, whether or not it comes to an end. -/
structure Access.Same (access : Access) (s : Session) (r : Request) : Prop where
  run : ∀ fuel source, r = .run fuel source → s.runBy access fuel source = s.run fuel source
  call : ∀ fuel callee arguments line, r = .call fuel callee arguments line →
    s.callBy access fuel callee arguments line = s.call fuel callee arguments line
  meets : ∀ x, r.Meets s x → x.activity.runBy access x.fuel x.machine = x.outcome

namespace Access

variable {access : Access} {s : Session} {r : Request}

theorem Same.answer (h : access.Same s r) : s.answerBy access r = s.answer? r := by
  cases r with
  | run fuel source => rw [Session.answerBy, h.run fuel source rfl]; rfl
  | call fuel callee arguments line => rw [Session.answerBy, h.call fuel callee arguments line rfl]; rfl

theorem executeEachBy_eq {n : Nat} : ∀ {sts : List Stmt} {m : Machine},
    (∀ before st after m', sts = before ++ st :: after → Eval.executeEach n before m = .done () m' →
      access.Suits ⟨n, .stmt st, m'⟩) → Eval.executeEachBy access n sts m = Eval.executeEach n sts m
  | [], _, _ => rfl
  | st :: sts, m, h => by
    rw [Eval.executeEachBy, Eval.executeEach]
    refine Run.bind_congr (access.sameWith n (.stmt st) m (h [] st sts m rfl rfl)) fun flow m' hf => ?_
    refine executeEachBy_eq fun before st' after m'' heq hm => h (st :: before) st' after m'' (by rw [heq]; rfl) ?_
    rw [Eval.executeEach, Run.bind_apply, hf]
    exact hm

theorem interpretBy_eq {fuel : Nat} {source : String} (h : access.SuitsRequest s (.run fuel source)) {c : Checked}
    (hc : (analyze source s.nextId).checked = some c) :
    Eval.interpretBy access fuel c.program c.table s.machine = Eval.interpret fuel c.program c.table s.machine := by
  refine Run.bind_congr rfl fun _ m hm => ?_
  obtain rfl : (Request.run fuel source).machine s = m := by
    cases hm
    simp only [Request.machine, hc]
  have heach : Eval.executeEachBy access fuel c.program ((Request.run fuel source).machine s) =
      Eval.executeEach fuel c.program ((Request.run fuel source).machine s) :=
    executeEachBy_eq fun before st after m' hprog hm => h _ (.statement hc hprog hm)
  unfold Eval.flushing
  rw [heach]

theorem SuitsRequest.same (h : access.SuitsRequest s r) : access.Same s r where
  run fuel source hr := by
    subst hr
    cases hc : (analyze source s.nextId).checked with
    | none => simp only [Session.runBy, Session.run, hc]
    | some c =>
      have heq := interpretBy_eq h hc
      cases ho : Eval.interpret fuel c.program c.table s.machine <;> simp only [Session.runBy, Session.run, hc, heq, ho]
  call fuel callee arguments line hr := by
    subst hr
    have heq : (Activity.call callee arguments line).runBy access fuel s.machine = Eval.call fuel callee arguments line s.machine :=
      access.sameWith fuel (.call callee arguments line) s.machine (h _ .call)
    cases ho : Eval.call fuel callee arguments line s.machine <;> simp only [Session.callBy, Session.call, heq, ho]
  meets x hx := by
    obtain ⟨y, hb, hreach⟩ := hx
    exact access.sameWith x.fuel x.activity x.machine fun z id name m hz ha => h y hb z id name m (hreach.trans hz) ha

/-- With access by the binding table all requests give what they give. -/
theorem resolved_same (s : Session) (r : Request) : Access.resolved.Same s r :=
  SuitsRequest.same fun _ _ _ id name m _ _ => resolved_follows id name m

end Access

/-! ## Unshadowed sessions -/

/-- No accepted source declares a name in a local scope where an occurrence of that name stands before, or uses the name of
a local variable in its initializer. -/
def Request.Unshadowed (s : Session) (r : Request) : Prop := ∀ o ∈ r.occurrences s, o.Unshadowed

def History.Unshadowed (h : History) : Prop := ∀ p ∈ h.past, p.2.Unshadowed p.1

variable {h : History} {r : Request}

theorem History.Possible.walking_suits (hp : h.Possible) (ha : h.Allows r) (hu : h.Unshadowed) (hr : r.Unshadowed h.session) :
    Access.walking.SuitsRequest h.session r := by
  intro x hb y id name m hreach hacc
  have hx : r.Meets h.session y := ⟨x, hb, hreach⟩
  obtain ⟨hcov, Γ, hready⟩ := hp.ready.meets ha hx
  obtain ⟨Γ', scopes, hacced⟩ := World.ready_accessed hcov hready hacc
  refine hacced.follows (fun env opener hc => hp.owned_of_accesses hx hacc hc) ?_
  rcases History.known_iff.mp hacced.2.1 with ho | ⟨p, hp, ho⟩
  · exact hr _ ho
  · exact hu p hp _ ho

/-- In sessions whose accepted sources declare no name too late, walking from frame to frame gives what the resolved
distances give: the same sessions come about, and any further request gives the same report, values, errors, output and
heap. -/
theorem walking_agrees_with_distances (hu : h.Unshadowed) : (h.PossibleBy .walking ↔ h.Possible) ∧
    (h.Possible → ∀ r, h.Allows r → r.Unshadowed h.session → Access.walking.Same h.session r) := by
  have same : ∀ {h : History} {r : Request}, h.Unshadowed → h.Possible → h.Allows r → r.Unshadowed h.session →
      Access.walking.Same h.session r := fun hu hp ha hr => (hp.walking_suits ha hu hr).same
  refine ⟨⟨fun hp => ?_, fun hp => ?_⟩, fun hp r ha hr => same hu hp ha hr⟩
  · induction hp with
    | start => exact .start
    | between input output clock _ ih => exact .between input output clock (ih hu)
    | @next h r a _ ha hans ih =>
      have hp := ih fun p hp => hu p (.tail _ hp)
      have hsame := same (fun p hp => hu p (.tail _ hp)) hp ha (hu _ (.head _))
      exact .next hp ha (hsame.answer ▸ hans)
  · induction hp with
    | start => exact .start
    | between input output clock _ ih => exact .between input output clock (ih hu)
    | @next h r a hp ha hans ih =>
      have hsame := same (fun p hp => hu p (.tail _ hp)) hp ha (hu _ (.head _))
      exact .next (ih fun p hp => hu p (.tail _ hp)) ha (hsame.answer.trans hans)

/-- A host goes on with a counter whose variable lies in a frame that only the counter still has. -/
theorem walking_of_counter :
    let h := History.start (.ofBytes []) .unlimited 0
    let r := Request.run 30 "fun make() { var n = 0; return fun() { n = n + 1; return n; }; } var k = make(); print k();"
    ∃ a f a', h.session.answer? r = some a ∧ a.session.machine.global? "k" = some f ∧
      a.session.answer? (.call 30 f [] 1) = some a' ∧ (h.after r a).PossibleBy .walking ∧
        Access.walking.Same a.session (.call 30 f [] 1) := by
  intro h r
  have hall : ((h.session.answer? r).bind fun a => (a.session.machine.global? "k").bind fun f =>
      a.session.answer? (.call 30 f [] 1)).isSome = true := by decide +kernel
  obtain ⟨a', hall⟩ := Option.isSome_iff_exists.mp hall
  obtain ⟨a, ha, hall⟩ := Option.bind_eq_some_iff.mp hall
  obtain ⟨f, hf, hcall⟩ := Option.bind_eq_some_iff.mp hall
  have hr : ∀ o ∈ r.occurrences h.session, o.Unshadowed := by decide +kernel
  have hu : (h.after r a).Unshadowed := fun p hp => by
    obtain rfl := List.mem_singleton.mp hp
    exact hr
  have hp : (h.after r a).Possible := .next .start trivial ha
  obtain ⟨hpossible, hsame⟩ := walking_agrees_with_distances hu
  exact ⟨a, f, a', ha, hf, hcall, hpossible.mpr hp, hsame hp _ ⟨.var (f := 0) (x := "k") hf, nofun⟩ nofun⟩

/-- A variable that is declared after the function that reads another one of its name. -/
example :
    let s := Session.start (.start (.ofBytes []) .unlimited 0)
    let source := "var a = 1; { fun f() { return a; } var a = 2; print f(); }"
    (s.run 30 source).map (·.2.written) = some "1\n".toUTF8.toList ∧
      (s.runBy .walking 30 source).map (·.2.written) = some "2\n".toUTF8.toList := by decide +kernel

end Lox
