import Lox.Proofs.Grammar.WrittenOut
import Lox.Proofs.Session.Tokens

/-!
# Programs that are written out in a session

A session does the same with a program that is written out as with the program itself. This is said here of compound assignments
and steps, which stand for longer assignments.
-/

namespace Lox

open Token (Kind)

variable {h : History} {loops : Bool} {cs : List Choice} {tokens out : List Token}

/-- The second text is the program of the first one in the session, but for identities and, unless they are kept, groups. -/
structure History.Rereads (h : History) (groups : Bool) (tokens out : List Token) : Prop where
  parsed : (parseProgram out h.session.nextId).errors = []
  tree : bareStmts groups (parseProgram out h.session.nextId).tree = bareStmts groups (parseProgram tokens h.session.nextId).tree
  errors : (resolveProgram (parseProgram out h.session.nextId).tree).errors =
    (resolveProgram (parseProgram tokens h.session.nextId).tree).errors
  warnings : (resolveProgram (parseProgram out h.session.nextId).tree).warnings =
    (resolveProgram (parseProgram tokens h.session.nextId).tree).warnings
  depths : programDepths (parseProgram out h.session.nextId).tree = programDepths (parseProgram tokens h.session.nextId).tree
  forth : h.session.Follows tokens out
  back : h.session.Follows out tokens

theorem WritesOut.rereads (hp : h.Possible) (herrors : (parseProgram (cs.map Choice.token) h.session.nextId).errors = [])
    (hw : WritesOut loops (parseProgram (cs.map Choice.token) h.session.nextId).tree cs out) :
    h.Rereads loops (cs.map Choice.token) out := by
  obtain ⟨hparsed, htree⟩ := hw.parsed h.session.nextId
  have hbare : bareStmts false (parseProgram (cs.map Choice.token) h.session.nextId).tree =
      bareStmts false (parseProgram out h.session.nextId).tree := by
    cases loops with
    | false => exact htree.symm
    | true => rw [← bareStmts_bare, ← htree, bareStmts_bare]
  have hnodup := (parseProgram_spans (cs.map Choice.token) h.session.nextId).nodup
  have hnodup' := (parseProgram_spans out h.session.nextId).nodup
  have hresolved := resolveProgram_bare hbare hnodup hnodup'
  exact ⟨hparsed, htree, hresolved.errors, hresolved.warnings, programDepths_bare hbare hnodup hnodup',
    hp.ready.follows herrors hparsed hbare, hp.ready.follows hparsed herrors hbare.symm⟩

/-- Compound assignments and steps are the assignments that they stand for, whichever of them are written out. -/
theorem updates_are_their_long_forms (hp : h.Possible)
    (herrors : (parseProgram (cs.map Choice.token) h.session.nextId).errors = []) :
    let program := (parseProgram (cs.map Choice.token) h.session.nextId).tree
    (∃ out, WritesOut false program cs out) ∧ ∀ out, WritesOut false program cs out →
      h.Rereads false (cs.map Choice.token) out ∧
        ∀ t ∈ out.takeWhile (·.kind ≠ .eof), t.kind.isShort false = true → ∃ c ∈ cs, c.long = false ∧ c.token = t :=
  ⟨WritesOut.exists_of_parsed herrors, fun _ hw => ⟨hw.rereads hp herrors, hw.unchosen_of_short⟩⟩

theorem Unfolds.operand_of_unary {e : Expr} {ts : List Token} (h : Unfolds loops (.unary e) cs ts) {level : Nat}
    (hle : level ≤ Connective.levels) : Unfolds loops (.operand level e) cs ts := by
  induction hle using Nat.decreasingInduction with
  | self => exact .strongest h
  | of_succ level hlt ih => exact List.append_nil cs ▸ List.append_nil ts ▸ .operators hlt ih .chainEnd

/-- A step inside a compound assignment, where both are written out. -/
theorem updates_are_their_long_forms_of_nested :
    let chosen (kind : Kind) : Choice := ⟨⟨kind, 1⟩, true⟩
    let cs := [chosen (.identifier "a"), chosen (.mark .minusEqual), chosen (.mark .plusPlus), chosen (.identifier "a"),
      chosen (.mark .dot), chosen (.identifier "b"), chosen (.mark .semicolon), chosen .eof]
    let out : List Token := [Kind.identifier "a", .mark .equal, .identifier "a", .mark .minus, .mark .leftParen,
      .mark .leftParen, .identifier "a", .mark .dot, .identifier "b", .mark .equal, .identifier "a", .mark .dot, .identifier "b",
      .mark .plus, .number "1" 1, .mark .rightParen, .mark .rightParen, .mark .semicolon, .eof].map (⟨·, 1⟩)
    let h := History.start (.ofBytes []) .unlimited 0
    (parseProgram (cs.map Choice.token) h.session.nextId).errors = [] ∧ h.Rereads false (cs.map Choice.token) out := by
  intro chosen cs out h
  have herrors : (parseProgram (cs.map Choice.token) h.session.nextId).errors = [] := by decide +kernel
  have hvar : Unfolds false (.primary (.var 0 ⟨"a", 1⟩)) _ _ := .var (c := chosen (.identifier "a")) rfl
  have hget := Unfolds.suffixed hvar (.got (c := chosen (.mark .dot)) (d := chosen (.identifier "b")) rfl rfl rfl .suffixEnd)
  have hstep := Unfolds.step (c := chosen (.mark .plusPlus)) rfl rfl hget rfl
  have hassign := Unfolds.assign (c := chosen (.mark .minusEqual)) rfl rfl (.suffixed hvar .suffixEnd)
    (.plain (hstep.operand_of_unary (Nat.zero_le _))) rfl
  have hstatement : Unfolds false (.statement false (.expr _)) _ _ := .expr (c := chosen (.mark .semicolon)) hassign rfl
  have hprogram := Unfolds.declarations (.statementDeclaration hstatement) .noDeclarations
  exact ⟨herrors, ((updates_are_their_long_forms .start herrors).2 out ⟨_, hprogram, rfl⟩).1⟩

end Lox
