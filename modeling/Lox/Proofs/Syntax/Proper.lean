import Mathlib.Data.List.Nodup
import Mathlib.Order.BooleanAlgebra.Defs
import Lox.Proofs.Scope.Lexical

/-!
# What every tree that the grammar makes is like

The identities in a tree, and the rules that hold of its parts: operators are operators, a branch
or the body of a loop declares nothing, a getter has no parameters, and the names have whatever
property the names in the text have.
-/

namespace Lox

/-! ## Identities -/

mutual

def Expr.ids : Expr → List NodeId
  | .literal _ => []
  | .unary _ _ operand => operand.ids
  | .binary _ _ left right => left.ids ++ right.ids
  | .logical _ _ left right => left.ids ++ right.ids
  | .group inner => inner.ids
  | .var id _ => [id]
  | .assign id _ value => value.ids ++ [id]
  | .call callee _ arguments => callee.ids ++ idsExprs arguments
  | .lambda _ routine => routine.ids
  | .get object _ => object.ids
  | .set object _ value => object.ids ++ value.ids
  | .this id _ => [id]
  | .super id _ _ => [id]

def idsExprs : List Expr → List NodeId
  | [] => []
  | e :: es => e.ids ++ idsExprs es

def Stmt.ids : Stmt → List NodeId
  | .expr e => e.ids
  | .print e => e.ids
  | .varDecl _ none => []
  | .varDecl _ (some e) => e.ids
  | .block body => idsStmts body
  | .branch condition thenBranch none => condition.ids ++ thenBranch.ids
  | .branch condition thenBranch (some elseBranch) => condition.ids ++ thenBranch.ids ++ elseBranch.ids
  | .loop condition body => condition.ids ++ body.ids
  | .funDecl _ routine => routine.ids
  | .returns _ _ none => []
  | .returns _ _ (some e) => e.ids
  | .breaks _ => []
  | .classDecl _ superclass methods statics =>
    (superclass.map Reference.id).toList ++ idsMethods statics ++ idsMethods methods

def idsStmts : List Stmt → List NodeId
  | [] => []
  | st :: sts => st.ids ++ idsStmts sts

def Routine.ids : Routine → List NodeId
  | ⟨_, body⟩ => idsStmts body

def Method.ids : Method → List NodeId
  | ⟨_, _, routine⟩ => routine.ids

def idsMethods : List Method → List NodeId
  | [] => []
  | m :: ms => m.ids ++ idsMethods ms

end

/-! The occurrences in a tree have its identities, whatever scopes lie around it. -/

mutual

theorem Expr.map_id_occurrences : ∀ (e : Expr) (scopes : Scopes), (e.occurrences scopes).map Occurrence.id = e.ids
  | .literal _, _ => rfl
  | .unary _ _ operand, scopes => operand.map_id_occurrences scopes
  | .binary _ _ left right, scopes => by
    simp [Expr.occurrences, Expr.ids, left.map_id_occurrences, right.map_id_occurrences]
  | .logical _ _ left right, scopes => by
    simp [Expr.occurrences, Expr.ids, left.map_id_occurrences, right.map_id_occurrences]
  | .group inner, scopes => inner.map_id_occurrences scopes
  | .var _ _, _ => rfl
  | .assign _ _ value, scopes => by simp [Expr.occurrences, Expr.ids, value.map_id_occurrences]
  | .call callee _ arguments, scopes => by
    simp [Expr.occurrences, Expr.ids, callee.map_id_occurrences, map_id_occurrencesExprs arguments]
  | .lambda _ routine, scopes => routine.map_id_occurrences scopes
  | .get object _, scopes => object.map_id_occurrences scopes
  | .set object _ value, scopes => by
    simp [Expr.occurrences, Expr.ids, object.map_id_occurrences, value.map_id_occurrences]
  | .this _ _, _ => rfl
  | .super _ _ _, _ => rfl

theorem map_id_occurrencesExprs : ∀ (es : List Expr) (scopes : Scopes),
    (occurrencesExprs es scopes).map Occurrence.id = idsExprs es
  | [], _ => rfl
  | e :: es, scopes => by simp [occurrencesExprs, idsExprs, e.map_id_occurrences, map_id_occurrencesExprs es]

theorem Stmt.map_id_occurrences : ∀ (st : Stmt) (scopes : Scopes), (st.occurrences scopes).map Occurrence.id = st.ids
  | .expr e, scopes => e.map_id_occurrences scopes
  | .print e, scopes => e.map_id_occurrences scopes
  | .varDecl _ none, _ => rfl
  | .varDecl name (some e), _ => e.map_id_occurrences _
  | .block body, _ => map_id_occurrencesStmts body _
  | .branch condition thenBranch none, scopes => by
    simp [Stmt.occurrences, Stmt.ids, condition.map_id_occurrences, thenBranch.map_id_occurrences]
  | .branch condition thenBranch (some elseBranch), scopes => by
    simp [Stmt.occurrences, Stmt.ids, condition.map_id_occurrences, thenBranch.map_id_occurrences,
      elseBranch.map_id_occurrences]
  | .loop condition body, scopes => by
    simp [Stmt.occurrences, Stmt.ids, condition.map_id_occurrences, body.map_id_occurrences]
  | .funDecl _ routine, _ => routine.map_id_occurrences _
  | .returns _ _ none, _ => rfl
  | .returns _ _ (some e), scopes => e.map_id_occurrences scopes
  | .breaks _, _ => rfl
  | .classDecl name superclass methods statics, scopes => by
    cases superclass <;>
      simp [Stmt.occurrences, Stmt.ids, map_id_occurrencesMethods statics, map_id_occurrencesMethods methods]

theorem map_id_occurrencesStmts : ∀ (sts : List Stmt) (scopes : Scopes),
    (occurrencesStmts sts scopes).map Occurrence.id = idsStmts sts
  | [], _ => rfl
  | st :: sts, scopes => by simp [occurrencesStmts, idsStmts, st.map_id_occurrences, map_id_occurrencesStmts sts]

theorem Routine.map_id_occurrences : ∀ (routine : Routine) (scopes : Scopes),
    (routine.occurrences scopes).map Occurrence.id = routine.ids
  | ⟨_, body⟩, _ => map_id_occurrencesStmts body _

theorem Method.map_id_occurrences : ∀ (m : Method) (scopes : Scopes), (m.occurrences scopes).map Occurrence.id = m.ids
  | ⟨_, _, routine⟩, scopes => routine.map_id_occurrences scopes

theorem map_id_occurrencesMethods : ∀ (ms : List Method) (scopes : Scopes),
    (occurrencesMethods ms scopes).map Occurrence.id = idsMethods ms
  | [], _ => rfl
  | m :: ms, scopes => by simp [occurrencesMethods, idsMethods, m.map_id_occurrences, map_id_occurrencesMethods ms]

end

/-- Each identity stands once in the list, and lies in the range. -/
structure Spans (lo hi : Nat) (ids : List Nat) : Prop where
  le : lo ≤ hi
  once : ∀ i, ids.count i ≤ if lo ≤ i ∧ i < hi then 1 else 0

namespace Spans

variable {lo mid hi : Nat} {xs ys : List Nat}

theorem nil (h : lo ≤ hi) : Spans lo hi [] := ⟨h, fun i => by simp⟩

theorem single (n : Nat) : Spans n (n + 1) [n] := by
  refine ⟨Nat.le_succ n, fun i => ?_⟩
  rw [List.count_singleton]
  by_cases h : n = i
  · subst h; simp
  · simp [h]

theorem append (h : Spans lo mid xs) (h' : Spans mid hi ys) : Spans lo hi (xs ++ ys) := by
  refine ⟨Nat.le_trans h.le h'.le, fun i => ?_⟩
  have hx := h.once i
  have hy := h'.once i
  have := h.le
  have := h'.le
  rw [List.count_append]
  split <;> split at hx <;> split at hy <;> omega

theorem perm (h : Spans lo hi xs) (p : xs.Perm ys) : Spans lo hi ys :=
  ⟨h.le, fun i => by rw [← p.count_eq]; exact h.once i⟩

theorem widen (h : Spans lo mid xs) (hl : mid ≤ hi) : Spans lo hi xs := by
  simpa using h.append (nil hl)

theorem widenLeft {lo' : Nat} (h : Spans lo hi xs) (hl : lo' ≤ lo) : Spans lo' hi xs := by
  simpa using (nil hl).append h

theorem left (h : Spans lo hi (xs ++ ys)) : Spans lo hi xs :=
  ⟨h.le, fun i => Nat.le_trans (by rw [List.count_append]; exact Nat.le_add_right ..) (h.once i)⟩

theorem right (h : Spans lo hi (xs ++ ys)) : Spans lo hi ys :=
  (h.perm List.perm_append_comm).left

theorem nodup (h : Spans lo hi xs) : xs.Nodup := by
  rw [List.nodup_iff_count_le_one]
  intro i
  have := h.once i
  split at this <;> omega

theorem mem (h : Spans lo hi xs) {i : Nat} (hm : i ∈ xs) : lo ≤ i ∧ i < hi := by
  have hc := h.once i
  have := List.count_pos_iff.mpr hm
  split at hc
  · assumption
  · omega

end Spans

/-! ## Rules -/

def Mark.isUnary : Mark → Bool
  | .bang => true
  | .minus => true
  | _ => false

def Mark.isBinary : Mark → Bool
  | .equalEqual => true
  | .bangEqual => true
  | .greater => true
  | .greaterEqual => true
  | .less => true
  | .lessEqual => true
  | .plus => true
  | .minus => true
  | .star => true
  | .slash => true
  | .percent => true
  | _ => false

mutual

/-- `P` holds of the names of variables, and `K` of a class and its superclass. -/
def Expr.Proper (P : Name → Prop) (K : Name → Name → Prop) : Expr → Prop
  | .literal _ => True
  | .unary op _ operand => op.isUnary = true ∧ operand.Proper P K
  | .binary op _ left right => op.isBinary = true ∧ left.Proper P K ∧ right.Proper P K
  | .logical _ _ left right => left.Proper P K ∧ right.Proper P K
  | .group inner => inner.Proper P K
  | .var _ name => P name
  | .assign _ name value => P name ∧ value.Proper P K
  | .call callee _ arguments => callee.Proper P K ∧ ProperExprs P K arguments
  | .lambda _ routine => routine.Proper P K
  | .get object _ => object.Proper P K
  | .set object _ value => object.Proper P K ∧ value.Proper P K
  | .this _ _ => True
  | .super _ _ _ => True

def ProperExprs (P : Name → Prop) (K : Name → Name → Prop) : List Expr → Prop
  | [] => True
  | e :: es => e.Proper P K ∧ ProperExprs P K es

def Stmt.Proper (P : Name → Prop) (K : Name → Name → Prop) : Stmt → Prop
  | .expr e => e.Proper P K
  | .print e => e.Proper P K
  | .varDecl name none => P name
  | .varDecl name (some e) => P name ∧ e.Proper P K
  | .block body => ProperStmts P K body
  | .branch condition thenBranch none =>
    condition.Proper P K ∧ thenBranch.Proper P K ∧ thenBranch.declares = []
  | .branch condition thenBranch (some elseBranch) =>
    condition.Proper P K ∧ (thenBranch.Proper P K ∧ thenBranch.declares = []) ∧
      elseBranch.Proper P K ∧ elseBranch.declares = []
  | .loop condition body => condition.Proper P K ∧ body.Proper P K ∧ body.declares = []
  | .funDecl name routine => P name ∧ routine.Proper P K
  | .returns _ _ none => True
  | .returns _ _ (some e) => e.Proper P K
  | .breaks _ => True
  | .classDecl name superclass methods statics =>
    P name ∧ (∀ ref ∈ superclass, P ref.name ∧ K name ref.name) ∧ ProperMethods P K methods ∧
      ProperMethods P K statics

def ProperStmts (P : Name → Prop) (K : Name → Name → Prop) : List Stmt → Prop
  | [] => True
  | st :: sts => st.Proper P K ∧ ProperStmts P K sts

def Routine.Proper (P : Name → Prop) (K : Name → Name → Prop) : Routine → Prop
  | ⟨params, body⟩ => (∀ p ∈ params, P p) ∧ ProperStmts P K body

def Method.Proper (P : Name → Prop) (K : Name → Name → Prop) : Method → Prop
  | ⟨_, isGetter, routine⟩ => (isGetter = true → routine.params = []) ∧ routine.Proper P K

def ProperMethods (P : Name → Prop) (K : Name → Name → Prop) : List Method → Prop
  | [] => True
  | m :: ms => m.Proper P K ∧ ProperMethods P K ms

end

section
variable {P : Name → Prop} {K : Name → Name → Prop}

theorem properStmts_append : ∀ (sts more : List Stmt),
    ProperStmts P K (sts ++ more) ↔ ProperStmts P K sts ∧ ProperStmts P K more
  | [], _ => by simp [ProperStmts]
  | _ :: sts, more => by simp [ProperStmts, properStmts_append sts more, and_assoc]

end

theorem idsStmts_append : ∀ (sts more : List Stmt), idsStmts (sts ++ more) = idsStmts sts ++ idsStmts more
  | [], _ => rfl
  | _ :: sts, _ => by simp [idsStmts, idsStmts_append sts]

end Lox
