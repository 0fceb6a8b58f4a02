import Lox.Proofs.Syntax.Recoded

/-!
# The same but for lines and identities

Trees are alike if they are the same code, whatever its lines and identities.
-/

namespace Lox

/-- No line differs from another one, and no identity. -/
def Recoding.blank : Recoding := ⟨fun _ => 0, fun _ => 0⟩

def Name.Alike (x y : Name) : Prop := x.text = y.text

def AlikeNames (xs ys : List Name) : Prop :=
  xs.map (Name.relined Recoding.blank.lineOf) = ys.map (Name.relined Recoding.blank.lineOf)

def Expr.Alike (e e' : Expr) : Prop := e.recoded .blank = e'.recoded .blank

def AlikeExprs (es es' : List Expr) : Prop := recodedExprs .blank es = recodedExprs .blank es'

def Stmt.Alike (st st' : Stmt) : Prop := st.recoded .blank = st'.recoded .blank

def AlikeStmts (sts sts' : List Stmt) : Prop := recodedStmts .blank sts = recodedStmts .blank sts'

def Method.Alike (m m' : Method) : Prop := m.recoded .blank = m'.recoded .blank

def AlikeMethods (ms ms' : List Method) : Prop := recodedMethods .blank ms = recodedMethods .blank ms'

theorem Name.Alike.relined {x y : Name} (h : x.Alike y) :
    x.relined Recoding.blank.lineOf = y.relined Recoding.blank.lineOf :=
  congrArg (Name.mk · 0) h

theorem AlikeNames.cons {x y : Name} {xs ys : List Name} (h : x.Alike y) (hs : AlikeNames xs ys) :
    AlikeNames (x :: xs) (y :: ys) :=
  congrArg₂ List.cons h.relined hs

namespace Expr.Alike

/-! ## What is alike to a target of an assignment -/

theorem of_var {id : NodeId} {name : Name} {e : Expr} (h : (Expr.var id name).Alike e) :
    ∃ id' name', e = .var id' name' ∧ name.Alike name' := by
  cases e with
  | var id' name' => exact ⟨id', name', rfl, (Name.mk.inj (Expr.var.inj h).2).1⟩
  | _ => exact nomatch h

theorem of_get {object : Expr} {name : Name} {e : Expr} (h : (Expr.get object name).Alike e) :
    ∃ object' name', e = .get object' name' ∧ object.Alike object' ∧ name.Alike name' := by
  cases e with
  | get object' name' => exact ⟨object', name', rfl, (Expr.get.inj h).1, (Name.mk.inj (Expr.get.inj h).2).1⟩
  | _ => exact nomatch h

end Expr.Alike

end Lox
