import Lox.Proofs.Evaluation.World

/-!
# Parts of code

Where a world sees a piece of code, it sees the parts of it, each in its scopes.
-/

namespace Lox

namespace World

variable {w : World} {Γ : Scopes} {p q : Prop} {os ps : List Occurrence}

theorem Sees.left (h : w.Sees p (os ++ ps)) (hq : p → q) : w.Sees q os :=
  ⟨hq h.proper, fun o ho => h.known o (List.mem_append_left _ ho)⟩

theorem Sees.right (h : w.Sees p (os ++ ps)) (hq : p → q) : w.Sees q ps :=
  ⟨hq h.proper, fun o ho => h.known o (List.mem_append_right _ ho)⟩

theorem Sees.imp (h : w.Sees p os) (hq : p → q) : w.Sees q os := ⟨hq h.proper, h.known⟩

namespace SeesExpr

variable {e e' : Expr} {es : List Expr} {op : Mark} {lop : LogicalOp} {line : Nat} {id : NodeId} {name : Name}

theorem operand (h : w.SeesExpr (.unary op line e) Γ) : w.SeesExpr e Γ := Sees.imp h (·.2)

theorem binaryLeft (h : w.SeesExpr (.binary op line e e') Γ) : w.SeesExpr e Γ := Sees.left h (·.2.1)

theorem binaryRight (h : w.SeesExpr (.binary op line e e') Γ) : w.SeesExpr e' Γ := Sees.right h (·.2.2)

theorem logicalLeft (h : w.SeesExpr (.logical lop line e e') Γ) : w.SeesExpr e Γ := Sees.left h (·.1)

theorem logicalRight (h : w.SeesExpr (.logical lop line e e') Γ) : w.SeesExpr e' Γ := Sees.right h (·.2)

theorem assigned (h : w.SeesExpr (.assign id name e) Γ) : w.SeesExpr e Γ := Sees.left h (·.2)

theorem callee (h : w.SeesExpr (.call e line es) Γ) : w.SeesExpr e Γ := Sees.left h (·.1)

theorem arguments (h : w.SeesExpr (.call e line es) Γ) : w.SeesExprs es Γ := Sees.right h (·.2)

theorem setObject (h : w.SeesExpr (.set e name e') Γ) : w.SeesExpr e Γ := Sees.left h (·.1)

theorem setValue (h : w.SeesExpr (.set e name e') Γ) : w.SeesExpr e' Γ := Sees.right h (·.2)

end SeesExpr

theorem SeesExprs.head {e : Expr} {es : List Expr} (h : w.SeesExprs (e :: es) Γ) : w.SeesExpr e Γ := Sees.left h (·.1)

theorem SeesExprs.tail {e : Expr} {es : List Expr} (h : w.SeesExprs (e :: es) Γ) : w.SeesExprs es Γ := Sees.right h (·.2)

namespace SeesStmt

variable {e : Expr} {st st' : Stmt} {name : Name} {form : ReturnForm} {line : Nat}

theorem initializer (h : w.SeesStmt (.varDecl name (some e)) Γ) : w.SeesExpr e (Γ.enterInitializer name.text) :=
  Sees.imp h (·.2)

theorem condition {other : Option Stmt} (h : w.SeesStmt (.branch e st other) Γ) : w.SeesExpr e Γ := by
  cases other with
  | none => exact Sees.left h (·.1)
  | some _ => exact Sees.left (Sees.left h id) (·.1)

theorem thenBranch {other : Option Stmt} (h : w.SeesStmt (.branch e st other) Γ) : w.SeesStmt st Γ := by
  cases other with
  | none => exact Sees.right h (·.2.1)
  | some _ => exact Sees.right (Sees.left h id) (·.2.1.1)

theorem elseBranch (h : w.SeesStmt (.branch e st (some st')) Γ) : w.SeesStmt st' Γ := by
  have hs := Sees.right h (·.2.2.1)
  rw [h.proper.2.1.2, Scopes.declare_nil] at hs
  exact hs

theorem loopCondition (h : w.SeesStmt (.loop e st) Γ) : w.SeesExpr e Γ := Sees.left h (·.1)

theorem loopBody (h : w.SeesStmt (.loop e st) Γ) : w.SeesStmt st Γ := Sees.right h (·.2.1)

section
variable {ref : Option Reference} {ms ss : List Method}

theorem superclass (h : w.SeesStmt (.classDecl name ref ms ss) Γ) :
    ∀ r ∈ ref, w.known ⟨r.id, r.name.text, Γ.declare [name.text]⟩ ∧ r.name.IsPlain ∧ Name.Differ name r.name := by
  intro r h
  cases h
  refine ⟨h.known _ ?_, h.proper.2.1 r rfl⟩
  exact List.mem_append_left _ (List.mem_append_left _ (by simp))

theorem methods (h : w.SeesStmt (.classDecl name ref ms ss) Γ) :
    w.SeesMethods ms (.ofReceiver (.classDecl name ref ms ss) ::
      (Γ.declare [name.text]).derive (.classDecl name ref ms ss) ref) :=
  Sees.right h (·.2.2.1)

theorem statics (h : w.SeesStmt (.classDecl name ref ms ss) Γ) :
    w.SeesMethods ss ((Γ.declare [name.text]).derive (.classDecl name ref ms ss) ref) :=
  Sees.right (Sees.left h id) (·.2.2.2)

end

end SeesStmt

theorem SeesStmts.first {st : Stmt} {sts : List Stmt} (h : w.SeesStmts (st :: sts) Γ) : w.SeesStmt st Γ := Sees.left h (·.1)

theorem SeesStmts.rest {st : Stmt} {sts : List Stmt} (h : w.SeesStmts (st :: sts) Γ) :
    w.SeesStmts sts (Γ.declare st.declares) :=
  Sees.right h (·.2)

theorem SeesRoutine.params : ∀ {r : Routine}, w.SeesRoutine r Γ → ∀ p ∈ r.params, p.IsPlain
  | ⟨_, _⟩, h => h.proper.1

theorem SeesRoutine.body : ∀ {r : Routine}, w.SeesRoutine r Γ → w.SeesStmts r.body (.ofRoutine r :: Γ)
  | ⟨_, _⟩, h => Sees.imp h (·.2)

end World

end Lox
