import Lox.Proofs.Evaluation.Exits
import Lox.Proofs.Session.LongForms

/-!
# `for` statements and loops

A `for` statement is the loop that it stands for, in the text and in the session, and its body and its increment are run in turns.
-/

namespace Lox

open Eval
open Token (Kind)

/-- How a `for` statement is run: in turns, which a break in the body ends, and so does a return, together with the function. -/
structure RunsInTurns (first : Option Stmt) (condition increment : Option Expr) (body : Stmt) : Prop where
  turns : ∀ m o, ComesTo (fun n => execute n (Parse.forLoop first condition increment body)) m o ↔
    ForRun condition increment body first m o
  breaks : ∀ {n m k st m' m''}, Moment.ReachesBy Activity.IsStraight
      ⟨n, .loop (condition.getD (.literal (.bool true))) (Parse.bodyThen body increment), m⟩ ⟨k, .stmt st, m'⟩ →
    execute k st m' = .done .broke m'' →
    repeatWhile n (condition.getD (.literal (.bool true))) (Parse.bodyThen body increment) m =
      .done .completed { m'' with env := m.env }
  returns : ∀ {n c args m k m₁ l st m' v m''}, Moment.ReachesBy Activity.IsStatement ⟨n, .runBody c args, m⟩
      ⟨k, .loop (condition.getD (.literal (.bool true))) (Parse.bodyThen body increment), m₁⟩ →
    Moment.ReachesBy Activity.IsStatement
      ⟨k, .loop (condition.getD (.literal (.bool true))) (Parse.bodyThen body increment), m₁⟩ ⟨l, .stmt st, m'⟩ →
    execute l st m' = .done (.returned v) m'' →
    runBody n c args m = (if c.isInitializer then receiverOf c else pure v) { m'' with env := m.env }

theorem runs_in_turns (first : Option Stmt) (condition increment : Option Expr) (body : Stmt) :
    RunsInTurns first condition increment body where
  turns _ _ := comesTo_forLoop
  breaks hr hb := break_leaves_loop hr hb
  returns hr hr' hb := return_leaves_function (hr.trans hr') hb

variable {h : History} {cs : List Choice}

/-- `for` statements are the loops that they stand for, whichever of them are written out, and they are run in turns. -/
theorem for_is_its_while_form (hp : h.Possible) (herrors : (parseProgram (cs.map Choice.token) h.session.nextId).errors = []) :
    let program := (parseProgram (cs.map Choice.token) h.session.nextId).tree
    ((∃ out, WritesOut true program cs out) ∧ ∀ out, WritesOut true program cs out →
      h.Rereads true (cs.map Choice.token) out ∧
        ∀ t ∈ out.takeWhile (·.kind ≠ .eof), t.kind.isShort true = true → ∃ c ∈ cs, c.long = false ∧ c.token = t) ∧
      ∀ first condition increment body, RunsInTurns first condition increment body :=
  ⟨⟨WritesOut.exists_of_parsed herrors, fun _ hw => ⟨hw.rereads hp herrors, hw.unchosen_of_short⟩⟩, runs_in_turns⟩

/-- A loop that breaks before its increment. -/
theorem for_is_its_while_form_of_break :
    let chosen (kind : Kind) : Choice := ⟨⟨kind, 1⟩, true⟩
    let cs := [chosen (.keyword .for), chosen (.mark .leftParen), chosen (.keyword .var), chosen (.identifier "a"),
      chosen (.mark .semicolon), chosen (.mark .semicolon), chosen (.identifier "a"), chosen (.mark .equal),
      chosen (.keyword .nil), chosen (.mark .rightParen), chosen (.keyword .break), chosen (.mark .semicolon), chosen .eof]
    let out : List Token := [Kind.mark .leftBrace, .keyword .var, .identifier "a", .mark .semicolon, .keyword .while,
      .mark .leftParen, .keyword .true, .mark .rightParen, .mark .leftBrace, .keyword .break, .mark .semicolon, .identifier "a",
      .mark .equal, .keyword .nil, .mark .semicolon, .mark .rightBrace, .mark .rightBrace, .eof].map (⟨·, 1⟩)
    let h := History.start (.ofBytes []) .unlimited 0
    let increment : Expr := .assign 0 ⟨"a", 1⟩ (.literal .nil)
    (parseProgram (cs.map Choice.token) h.session.nextId).errors = [] ∧ h.Rereads true (cs.map Choice.token) out ∧
      ∀ m, repeatWhile 5 (.literal (.bool true)) (Parse.bodyThen (.breaks 1) (some increment)) m =
        .done .completed { m.opened with env := m.env } := by
  intro chosen cs out h increment
  have herrors : (parseProgram (cs.map Choice.token) h.session.nextId).errors = [] := by decide +kernel
  have hnil : Unfolds true (.primary (.literal .nil)) _ _ := .literal (c := chosen (.keyword .nil)) rfl
  have hvar : Unfolds true (.primary (.var 0 ⟨"a", 1⟩)) _ _ := .var (c := chosen (.identifier "a")) rfl
  have hincrement := Unfolds.assign (c := chosen (.mark .equal)) rfl rfl (.suffixed hvar .suffixEnd)
    (.plain ((Unfolds.called (.suffixed hnil .suffixEnd)).operand_of_unary (Nat.zero_le _))) rfl
  have hfirst : Unfolds true (.initializer (some (.varDecl ⟨"a", 1⟩ none))) _ _ := .variableInitializer
    (c := chosen (.keyword .var)) rfl (.declared (c := chosen (.identifier "a")) (d := chosen (.mark .semicolon)) rfl rfl)
  have hbreak : Unfolds true (.statement false (.breaks 1)) _ _ :=
    .breaks (c := chosen (.keyword .break)) (d := chosen (.mark .semicolon)) rfl rfl
  have hfor := Unfolds.forLoop (c := chosen (.keyword .for)) (d := chosen (.mark .leftParen)) (f := chosen (.mark .semicolon))
    (g := chosen (.mark .rightParen)) rfl rfl hfirst .absent rfl (.present hincrement) rfl hbreak
  have hprogram := Unfolds.declarations (.statementDeclaration hfor) .noDeclarations
  obtain ⟨⟨-, hout⟩, hturns⟩ := for_is_its_while_form .start herrors
  refine ⟨herrors, (hout out ⟨_, hprogram, rfl⟩).1, fun m => ?_⟩
  refine (hturns none none (some increment) (.breaks 1)).breaks ?_ (rfl : execute 2 (.breaks 1) m.opened = _)
  have hbody : Moment.Calls ⟨4, .stmt (.block [.breaks 1, .expr increment]), m⟩ ⟨3, .stmts [.breaks 1, .expr increment], m.opened⟩ :=
    .block rfl
  exact .step (.loopBody (rfl : evaluate 4 (.literal (.bool true)) m = _) rfl) trivial
    (.step hbody trivial (.step .first trivial .refl))

end Lox
