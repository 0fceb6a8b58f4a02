import Lox.Proofs.Grammar.Shifted
import Lox.Proofs.Scope.Renumbered
import Lox.Proofs.Session.Joined

/-!
# Sessions with other identities

A session whose identities have a gap gives the same replies as the one without it, and leaves the same machine but for
the identities in its code.
-/

namespace Lox

/-! ## Evaluation -/

namespace Renumbering

variable (ν : Renumbering)

/-- The same machine with the other identities in its code. -/
def view : View := ⟨ν.code, ν.tables, 0⟩

theorem suits (x : Moment) : ν.view.Suits x := View.suits_of_tables ν.get? x

theorem interpret (fuel : Nat) (program : List Stmt) (table : BindingTable) (m : Machine) :
    Eval.interpret fuel (recodedStmts ν.code program) (ν.tables table) (ν.view.machine m) =
      ν.view.outcome id (Eval.interpret fuel program table m) := by
  let begun : Machine := { m with bindings := m.bindings.merge table }
  have hs : ν.view.Shows id (Eval.flushing (Eval.executeEach fuel program))
      (Eval.flushing (Eval.executeEach (fuel + ν.view.spare) (recodedStmts ν.code program))) begun :=
    (View.executeEach fun _ _ _ _ _ _ => ν.suits _).flushing
  have hbegun : ν.view.machine begun =
      { ν.view.machine m with bindings := (ν.view.machine m).bindings.merge (ν.tables table) } := by
    simp only [View.machine, begun, ν.merge, view]
    rfl
  have heq := hs.eq_of_ne (.inl rfl)
  rw [hbegun] at heq
  exact heq

theorem call (fuel : Nat) (callee : Value) (arguments : List Value) (line : Nat) (m : Machine) :
    Eval.call fuel (callee.recoded ν.code) (arguments.map (Value.recoded ν.code)) line (ν.view.machine m) =
      ν.view.outcome (Value.recoded ν.code) (Eval.call fuel callee arguments line m) :=
  ((ν.view.faithful fuel).call callee arguments line m (ν.suits _)).eq_of_ne (.inl rfl)

end Renumbering

/-! ## Static phases -/

def Checked.renumbered (ν : Renumbering) (c : Checked) : Checked := ⟨recodedStmts ν.code c.program, ν.tables c.table⟩

/-- A text that is checked behind a gap in the identities. -/
theorem analyze_behind_gap (source : String) {start nextId : NodeId} (h : start ≤ nextId) (width : Nat) :
    analyze source (nextId + width) =
      { checked := (analyze source nextId).checked.map (Checked.renumbered (.gap start width))
        errors := (analyze source nextId).errors
        warnings := (analyze source nextId).warnings
        nextId := (analyze source nextId).nextId + width } := by
  -- no identity of the tree is below the gap
  have htree : recodedStmts (.shift width) (parseProgram (tokensOf (Item.ofSource source)) nextId).tree =
      recodedStmts (Renumbering.gap start width).code (parseProgram (tokensOf (Item.ofSource source)) nextId).tree := by
    refine recodedStmts_congr _ fun j hj => ?_
    have hlow : ¬ j < start := Nat.not_lt.mpr (Nat.le_trans h ((parse_spans source nextId).mem hj).1)
    exact (if_neg hlow).symm
  unfold analyze
  simp only [parseProgram_shifted, htree, resolveProgram_renumbered]
  split
  · have he : ∀ r : Resolution, (r.renumbered (Renumbering.gap start width)).errors = r.errors := fun _ => rfl
    simp only [he]
    split <;> rfl
  · rfl

/-! ## Replies -/

/-- What a session tells the host. -/
inductive Reply where
  | ran (report : Report)
  | called (result : Except Error Value)

def Reply.recoded (ρ : Recoding) : Reply → Reply
  | .ran report => .ran report
  | .called result => .called (result.map (Value.recoded ρ))

def Request.recoded (ρ : Recoding) : Request → Request
  | .run fuel source => .run fuel source
  | .call fuel callee arguments line => .call fuel (callee.recoded ρ) (arguments.map (Value.recoded ρ)) line

namespace Session

def reply? (s : Session) : Request → Option (Reply × Session)
  | .run fuel source => (s.run fuel source).map (Prod.map .ran id)
  | .call fuel callee arguments line => (s.call fuel callee arguments line).map (Prod.map .called id)

/-- The same session with a gap in its identities. -/
def behindGap (start width : Nat) (s : Session) : Session :=
  ⟨(Renumbering.gap start width).view.machine s.machine, s.nextId + width⟩

variable {start : Nat} {s : Session}

theorem run_behind_gap (h : start ≤ s.nextId) (width fuel : Nat) (source : String) :
    (s.behindGap start width).run fuel source = (s.run fuel source).map (Prod.map id (behindGap start width)) := by
  have ha := analyze_behind_gap source h width
  cases hc : (analyze source s.nextId).checked with
  | none =>
    rw [hc] at ha
    have hnone : (analyze source (s.behindGap start width).nextId).checked = none := congrArg Analysis.checked ha
    rw [run_of_unchecked hc, run_of_unchecked hnone]
    simp only [behindGap, ha, Option.map_some, Prod.map, id]
  | some c =>
    rw [hc] at ha
    have hsome : (analyze source (s.behindGap start width).nextId).checked = some (c.renumbered (.gap start width)) :=
      congrArg Analysis.checked ha
    have heval := (Renumbering.gap start width).interpret fuel c.program c.table s.machine
    rw [run_of_checked hc, run_of_checked hsome]
    simp only [behindGap, Checked.renumbered, ha, heval]
    cases Eval.interpret fuel c.program c.table s.machine with
    | done a m => rfl
    | failed e m => simp only [View.outcome, Renumbering.view, Renumbering.code, Error.relined_id]; rfl
    | exhausted => rfl

theorem call_behind_gap (start width fuel : Nat) (callee : Value) (arguments : List Value) (line : Nat) :
    (s.behindGap start width).call fuel (callee.recoded (Renumbering.gap start width).code)
        (arguments.map (Value.recoded (Renumbering.gap start width).code)) line =
      (s.call fuel callee arguments line).map
        (Prod.map (Except.map (Value.recoded (Renumbering.gap start width).code)) (behindGap start width)) := by
  have heval := (Renumbering.gap start width).call fuel callee arguments line s.machine
  simp only [call, behindGap, heval]
  cases Eval.call fuel callee arguments line s.machine with
  | done a m => rfl
  | failed e m => simp only [View.outcome, Renumbering.view, Renumbering.code, Error.relined_id]; rfl
  | exhausted => rfl

theorem reply_behind_gap (h : start ≤ s.nextId) (width : Nat) (r : Request) :
    (s.behindGap start width).reply? (r.recoded (Renumbering.gap start width).code) =
      (s.reply? r).map (Prod.map (Reply.recoded (Renumbering.gap start width).code) (behindGap start width)) := by
  cases r with
  | run fuel source =>
    simp only [reply?, Request.recoded, run_behind_gap h]
    cases s.run fuel source <;> rfl
  | call fuel callee arguments line =>
    simp only [reply?, Request.recoded, call_behind_gap]
    cases s.call fuel callee arguments line <;> rfl

theorem nextId_of_reply {s' : Session} {r : Request} {reply : Reply} (h : s.reply? r = some (reply, s')) :
    s.nextId ≤ s'.nextId := by
  cases r with
  | call fuel callee arguments line =>
    simp only [reply?, call] at h
    cases ho : Eval.call fuel callee arguments line s.machine <;> rw [ho] at h <;> cases h <;> exact Nat.le_refl _
  | run fuel source =>
    have hle := le_nextId source s.nextId
    cases hc : (analyze source s.nextId).checked with
    | none => rw [reply?, run_of_unchecked hc] at h; cases h; exact hle
    | some c =>
      rw [reply?, run_of_checked hc] at h
      cases ho : Eval.interpret fuel c.program c.table s.machine <;> rw [ho] at h <;> cases h <;> exact hle

end Session

/-! ## Transcripts -/

/-- What happens to a session: a request, or what the host and time do between requests. -/
inductive Step where
  | request (r : Request)
  | between (input : Input) (output : Sink) (clock : Nat)

def Step.recoded (ρ : Recoding) : Step → Step
  | .request r => .request (r.recoded ρ)
  | .between input output clock => .between input output clock

/-- The replies, each with the machine that it leaves: what it has written, what is left of its input, its variables.
There are none after a request that does not come to an end. -/
def Session.transcript : List Step → Session → List (Reply × Machine)
  | [], _ => []
  | .between input output clock :: steps, s =>
    transcript steps { s with machine := { s.machine with input, output, clock } }
  | .request r :: steps, s =>
    match s.reply? r with
    | none => []
    | some (reply, s') => (reply, s'.machine) :: transcript steps s'

theorem Session.transcript_behind_gap {start : Nat} (width : Nat) : ∀ (steps : List Step) {s : Session}, start ≤ s.nextId →
    (s.behindGap start width).transcript (steps.map (Step.recoded (Renumbering.gap start width).code)) =
      (s.transcript steps).map
        (Prod.map (Reply.recoded (Renumbering.gap start width).code) (Renumbering.gap start width).view.machine)
  | [], _, _ => rfl
  | .between input output clock :: steps, s, h =>
    transcript_behind_gap width steps (s := { s with machine := { s.machine with input, output, clock } }) h
  | .request r :: steps, s, h => by
    rw [List.map_cons, Step.recoded, transcript, transcript, reply_behind_gap h]
    cases hr : s.reply? r with
    | none => rfl
    | some found =>
      obtain ⟨reply, s'⟩ := found
      exact congrArg (_ :: ·) (transcript_behind_gap width steps (Nat.le_trans h (nextId_of_reply hr)))

end Lox
