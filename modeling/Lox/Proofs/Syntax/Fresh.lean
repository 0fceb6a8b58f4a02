import Lox.Syntax.Fresh
import Lox.Proofs.Syntax.Proper

/-!
# A copy is as good as the tree

The identities of a copy are new, and each stands once. What is proper stays so.
-/

namespace Lox

mutual

theorem Expr.fresh_spans : ∀ (e : Expr) (next : NodeId), Spans next (e.fresh next).2 (e.fresh next).1.ids
  | .literal _, _ => .nil (Nat.le_refl _)
  | .unary _ _ operand, next => operand.fresh_spans next
  | .binary _ _ left right, next => (left.fresh_spans next).append (right.fresh_spans _)
  | .logical _ _ left right, next => (left.fresh_spans next).append (right.fresh_spans _)
  | .group inner, next => inner.fresh_spans next
  | .var _ _, next => .single next
  | .assign _ _ value, next => (value.fresh_spans next).append (.single _)
  | .call callee _ arguments, next => (callee.fresh_spans next).append (freshExprs_spans arguments _)
  | .lambda _ routine, next => routine.fresh_spans next
  | .get object _, next => object.fresh_spans next
  | .set object _ value, next => (object.fresh_spans next).append (value.fresh_spans _)
  | .this _ _, next => .single next
  | .super _ _ _, next => .single next

theorem freshExprs_spans : ∀ (es : List Expr) (next : NodeId),
    Spans next (freshExprs es next).2 (idsExprs (freshExprs es next).1)
  | [], _ => .nil (Nat.le_refl _)
  | e :: es, next => (e.fresh_spans next).append (freshExprs_spans es _)

theorem Stmt.fresh_spans : ∀ (st : Stmt) (next : NodeId), Spans next (st.fresh next).2 (st.fresh next).1.ids
  | .expr e, next => e.fresh_spans next
  | .print e, next => e.fresh_spans next
  | .varDecl _ none, _ => .nil (Nat.le_refl _)
  | .varDecl _ (some e), next => e.fresh_spans next
  | .block body, next => freshStmts_spans body next
  | .branch condition thenBranch none, next => (condition.fresh_spans next).append (thenBranch.fresh_spans _)
  | .branch condition thenBranch (some elseBranch), next =>
    ((condition.fresh_spans next).append (thenBranch.fresh_spans _)).append (elseBranch.fresh_spans _)
  | .loop condition body, next => (condition.fresh_spans next).append (body.fresh_spans _)
  | .funDecl _ routine, next => routine.fresh_spans next
  | .returns _ _ none, _ => .nil (Nat.le_refl _)
  | .returns _ _ (some e), next => e.fresh_spans next
  | .breaks _, _ => .nil (Nat.le_refl _)
  | .classDecl _ none methods statics, next =>
    ((freshMethods_spans methods next).append (freshMethods_spans statics _)).perm List.perm_append_comm
  | .classDecl _ (some _) methods statics, next => by
    have hm := (freshMethods_spans methods (next + 1)).append (freshMethods_spans statics _)
    exact (Spans.single next).append (hm.perm List.perm_append_comm)

theorem freshStmts_spans : ∀ (sts : List Stmt) (next : NodeId),
    Spans next (freshStmts sts next).2 (idsStmts (freshStmts sts next).1)
  | [], _ => .nil (Nat.le_refl _)
  | st :: sts, next => (st.fresh_spans next).append (freshStmts_spans sts _)

theorem Routine.fresh_spans : ∀ (routine : Routine) (next : NodeId),
    Spans next (routine.fresh next).2 (routine.fresh next).1.ids
  | ⟨_, body⟩, next => freshStmts_spans body next

theorem Method.fresh_spans : ∀ (m : Method) (next : NodeId), Spans next (m.fresh next).2 (m.fresh next).1.ids
  | ⟨_, _, routine⟩, next => routine.fresh_spans next

theorem freshMethods_spans : ∀ (ms : List Method) (next : NodeId),
    Spans next (freshMethods ms next).2 (idsMethods (freshMethods ms next).1)
  | [], _ => .nil (Nat.le_refl _)
  | m :: ms, next => (m.fresh_spans next).append (freshMethods_spans ms _)

end

theorem Stmt.fresh_declares : ∀ (st : Stmt) (next : NodeId), (st.fresh next).1.declares = st.declares
  | .expr _, _ => rfl
  | .print _, _ => rfl
  | .varDecl _ none, _ => rfl
  | .varDecl _ (some _), _ => rfl
  | .block _, _ => rfl
  | .branch _ thenBranch none, _ => thenBranch.fresh_declares _
  | .branch _ thenBranch (some elseBranch), _ =>
    congrArg₂ (· ++ ·) (elseBranch.fresh_declares _) (thenBranch.fresh_declares _)
  | .loop _ body, _ => body.fresh_declares _
  | .funDecl _ _, _ => rfl
  | .returns _ _ none, _ => rfl
  | .returns _ _ (some _), _ => rfl
  | .breaks _, _ => rfl
  | .classDecl _ none _ _, _ => rfl
  | .classDecl _ (some _) _ _, _ => rfl

section
variable {P : Name → Prop} {K : Name → Name → Prop}

mutual

theorem Expr.Proper.fresh : ∀ {e : Expr} (_ : e.Proper P K) (next : NodeId), (e.fresh next).1.Proper P K
  | .literal _, _, _ => trivial
  | .unary _ _ _, h, next => ⟨h.1, h.2.fresh next⟩
  | .binary _ _ _ _, h, next => ⟨h.1, h.2.1.fresh next, h.2.2.fresh _⟩
  | .logical _ _ _ _, h, next => ⟨h.1.fresh next, h.2.fresh _⟩
  | .group inner, h, next => Expr.Proper.fresh (e := inner) h next
  | .var _ _, h, _ => h
  | .assign _ _ _, h, next => ⟨h.1, h.2.fresh next⟩
  | .call _ _ _, h, next => ⟨h.1.fresh next, h.2.fresh _⟩
  | .lambda _ routine, h, next => Routine.Proper.fresh (r := routine) h next
  | .get object _, h, next => Expr.Proper.fresh (e := object) h next
  | .set _ _ _, h, next => ⟨h.1.fresh next, h.2.fresh _⟩
  | .this _ _, _, _ => trivial
  | .super _ _ _, _, _ => trivial

theorem ProperExprs.fresh : ∀ {es : List Expr} (_ : ProperExprs P K es) (next : NodeId),
    ProperExprs P K (freshExprs es next).1
  | [], _, _ => trivial
  | _ :: _, h, next => ⟨h.1.fresh next, h.2.fresh _⟩

theorem Stmt.Proper.fresh : ∀ {st : Stmt} (_ : st.Proper P K) (next : NodeId), (st.fresh next).1.Proper P K
  | .expr e, h, next => Expr.Proper.fresh (e := e) h next
  | .print e, h, next => Expr.Proper.fresh (e := e) h next
  | .varDecl _ none, h, _ => h
  | .varDecl _ (some _), h, next => ⟨h.1, h.2.fresh next⟩
  | .block body, h, next => ProperStmts.fresh (l := body) h next
  | .branch _ thenBranch none, h, next =>
    ⟨h.1.fresh next, h.2.1.fresh _, by rw [thenBranch.fresh_declares]; exact h.2.2⟩
  | .branch _ thenBranch (some elseBranch), h, next =>
    ⟨h.1.fresh next, ⟨h.2.1.1.fresh _, by rw [thenBranch.fresh_declares]; exact h.2.1.2⟩,
      h.2.2.1.fresh _, by rw [elseBranch.fresh_declares]; exact h.2.2.2⟩
  | .loop _ body, h, next => ⟨h.1.fresh next, h.2.1.fresh _, by rw [body.fresh_declares]; exact h.2.2⟩
  | .funDecl _ _, h, next => ⟨h.1, h.2.fresh next⟩
  | .returns _ _ none, _, _ => trivial
  | .returns _ _ (some e), h, next => Expr.Proper.fresh (e := e) h next
  | .breaks _, _, _ => trivial
  | .classDecl _ none _ _, h, _ => ⟨h.1, h.2.1, h.2.2.1.fresh _, h.2.2.2.fresh _⟩
  | .classDecl _ (some ref) _ _, h, _ =>
    ⟨h.1, fun r hr => by cases hr; exact h.2.1 ref rfl, h.2.2.1.fresh _, h.2.2.2.fresh _⟩

theorem ProperStmts.fresh : ∀ {l : List Stmt} (_ : ProperStmts P K l) (next : NodeId), ProperStmts P K (freshStmts l next).1
  | [], _, _ => trivial
  | _ :: _, h, next => ⟨h.1.fresh next, h.2.fresh _⟩

theorem Routine.Proper.fresh : ∀ {r : Routine} (_ : r.Proper P K) (next : NodeId), (r.fresh next).1.Proper P K
  | ⟨_, _⟩, h, next => ⟨h.1, h.2.fresh next⟩

theorem Method.Proper.fresh : ∀ {m : Method} (_ : m.Proper P K) (next : NodeId), (m.fresh next).1.Proper P K
  | ⟨_, _, ⟨_, _⟩⟩, h, next => ⟨h.1, h.2.fresh next⟩

theorem ProperMethods.fresh : ∀ {ms : List Method} (_ : ProperMethods P K ms) (next : NodeId),
    ProperMethods P K (freshMethods ms next).1
  | [], _, _ => trivial
  | _ :: _, h, next => ⟨h.1.fresh next, h.2.fresh _⟩

end

end

end Lox
