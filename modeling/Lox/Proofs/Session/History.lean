import Lox.Session
import Lox.Proofs.Evaluation.Reached

/-!
# Histories of a session

A host asks a session to run sources and to call values, one request after the other. The values
that it can call are those that calls have given it and those that it finds in the session.
-/

namespace Lox

inductive Request where
  | run (fuel : Nat) (source : String)
  | call (fuel : Nat) (callee : Value) (arguments : List Value) (line : Nat)

/-- What a host gets for a request that comes to an end. -/
structure Answer where
  /-- What has stopped the evaluation. -/
  errors : List Error
  /-- What a call has given. -/
  values : List Value
  session : Session

def Session.answer? (s : Session) : Request → Option Answer
  | .run fuel source => (s.run fuel source).map fun (report, s') =>
    ⟨if report.status = .runtimeError then report.errors else [], [], s'⟩
  | .call fuel callee arguments line => (s.call fuel callee arguments line).map fun
    | (.ok v, s') => ⟨[], [v], s'⟩
    | (.error e, s') => ⟨[e], [], s'⟩

namespace Request

variable (s : Session)

/-- The occurrences in the program that the request runs. -/
def occurrences : Request → List Occurrence
  | run _ source => ((analyze source s.nextId).checked.map fun c => programOccurrences c.program).getD []
  | call .. => []

/-- The first identity that is free after the request. -/
def nextId : Request → NodeId
  | run _ source => (analyze source s.nextId).nextId
  | call .. => s.nextId

/-- The machine on which the evaluation begins. -/
def machine : Request → Machine
  | run _ source =>
    match (analyze source s.nextId).checked with
    | some c => { s.machine with bindings := s.machine.bindings.merge c.table }
    | none => s.machine
  | call .. => s.machine

/-- The moments that the evaluation begins with: the statements of the program, or the call. -/
inductive Begins : Request → Moment → Prop where
  | statement {fuel source c before st after m} : (analyze source s.nextId).checked = some c →
    c.program = before ++ st :: after →
    Eval.executeEach fuel before ((run fuel source).machine s) = .done () m →
    Begins (run fuel source) ⟨fuel, .stmt st, m⟩
  | call {fuel callee arguments line} :
    Begins (call fuel callee arguments line) ⟨fuel, .call callee arguments line, s.machine⟩

/-- The evaluation of the request comes to the moment. -/
def Meets (r : Request) (x : Moment) : Prop := ∃ y, r.Begins s y ∧ y.Reaches x

/-- The request may end in the error: it is no internal one, and where it is that of an undefined
variable, a node is to blame whose variable is not there. -/
structure Blames (r : Request) (e : Error) : Prop where
  external : e.isInternal = false
  traced : ∀ line text, e = .runtime line (.naming (.undefined text)) →
    ∃ x id m, r.Meets s x ∧ x.Accesses id ⟨text, line⟩ m ∧ m.lookUp? id text = none

end Request

theorem Moment.Blames.begins {s : Session} {r : Request} {x : Moment} {e : Error} (h : x.Blames e) (hb : r.Begins s x) :
    r.Blames s e where
  external := h.external
  traced line text he := by
    obtain ⟨y, id, m, hr, ha⟩ := h.traced line text he
    exact ⟨y, id, m, ⟨x, hb, hr⟩, ha⟩

/-! ## Worlds -/

/-- Requests, each with the session that it found, the latest first. -/
abbrev Past := List (Session × Request)

namespace Past

/-- All programs were checked. -/
theorem checked {past : Past} {o : Occurrence} (h : ∃ p ∈ past, o ∈ p.2.occurrences p.1) :
    ∃ source nextId c, (analyze source nextId).checked = some c ∧ o ∈ programOccurrences c.program := by
  obtain ⟨⟨s, r⟩, -, ho⟩ := h
  cases r with
  | call => cases ho
  | run fuel source =>
    cases hc : (analyze source s.nextId).checked with
    | none => simp [Request.occurrences, hc] at ho
    | some c =>
      simp only [Request.occurrences, hc] at ho
      exact ⟨source, s.nextId, c, hc, ho⟩

/-- So all occurrences are in their places. -/
theorem placed {past : Past} {o : Occurrence} (h : ∃ p ∈ past, o ∈ p.2.occurrences p.1) : o.Placed := by
  obtain ⟨_, _, c, hc, ho⟩ := checked h
  exact (Checked.accepted hc).placed o ho

/-- What has been created and what has been run. -/
def world (past : Past) : World where
  created env opener := ∃ p ∈ past, ∃ x, p.2.Meets p.1 x ∧ x.Creates env opener
  known o := ∃ p ∈ past, o ∈ p.2.occurrences p.1
  placed _ h := placed h

theorem within (p : Session × Request) (past : Past) : (world past).Within (world (p :: past)) where
  created _ _ := fun ⟨q, hq, h⟩ => ⟨q, .tail _ hq, h⟩
  known _ := fun ⟨q, hq, h⟩ => ⟨q, .tail _ hq, h⟩

/-- The moments with which a request begins create what its world has created. -/
theorem covers {s : Session} {r : Request} {past : Past} {x : Moment} (h : r.Begins s x) :
    (world ((s, r) :: past)).Covers x :=
  fun y _ _ hr hc => ⟨(s, r), .head _, y, ⟨x, h, hr⟩, hc⟩

end Past

structure History where
  session : Session
  past : Past
  /-- What calls have given. -/
  given : List Value

namespace History

/-- A new session. -/
def start (input : Input) (output : Sink) (clock : Nat) : History where
  session := .start (.start input output clock)
  past := []
  given := []

def after (h : History) (r : Request) (a : Answer) : History where
  session := a.session
  past := (h.session, r) :: h.past
  given := a.values ++ h.given

/-- Between requests the host may read from the input and write to the output itself, and time goes on. -/
def between (h : History) (input : Input) (output : Sink) (clock : Nat) : History :=
  { h with session := { h.session with machine := { h.session.machine with input, output, clock } } }

/-- The values that the host can name: simple ones, those it was given, those in the session's
variables and fields, and what belongs to these. -/
inductive Offers (h : History) : Value → Prop where
  | nil : Offers h .nil
  | bool {b} : Offers h (.bool b)
  | number {x} : Offers h (.number x)
  | string {s} : Offers h (.string s)
  | native {fn} : Offers h (.native fn)
  | given {v} : v ∈ h.given → Offers h v
  | var {f x v} : h.session.machine.store.var? f x = some v → Offers h v
  | field {i x v} : h.session.machine.store.field? i x = some v → Offers h v
  | cls {i} : Offers h (.object i) → Offers h (.klass i.cls)
  | superclass {c layer rest} : Offers h (.klass c) → c.ancestors = layer :: rest → Offers h (.klass ⟨layer, rest⟩)
  | static {c x f} : Offers h (.klass c) → c.static? x = some f → Offers h (.function f)
  | receiver {m} : Offers h (.bound m) → Offers h (.object m.receiver)

/-- Any source can be run, but only values that the host has can be called. -/
def Allows (h : History) : Request → Prop
  | .run _ _ => True
  | .call _ callee arguments _ => h.Offers callee ∧ ∀ v ∈ arguments, h.Offers v

/-- The histories that come about, whatever the requests end in. -/
inductive Possible : History → Prop where
  | start {input output clock} : Possible (.start input output clock)
  | next {h r a} : Possible h → h.Allows r → h.session.answer? r = some a → Possible (h.after r a)
  | between {h} (input output clock) : Possible h → Possible (h.between input output clock)

/-- The world when the request has been made. -/
def worldWith (h : History) (r : Request) : World := Past.world ((h.session, r) :: h.past)

end History

end Lox
