import Lox.Token
import Lox.Syntax.Basic

/-!
# Operators by strength

Operators between two operands stand on six levels, the weakest first: `or`, `and`, equality,
comparison, sums, products. All of them group to the left.
-/

namespace Lox

/-- What joins two operands. -/
inductive Connective where
  | logical (op : LogicalOp)
  | binary (op : Mark)
deriving DecidableEq, Repr

namespace Connective

def join (c : Connective) (line : Nat) (left right : Expr) : Expr :=
  match c with
  | logical op => .logical op line left right
  | binary op => .binary op line left right

/-- The number of levels. An operand of the last one is a unary expression. -/
def levels : Nat := 6

/-- The level of a token's operator and the operator. -/
def ofKind? : Token.Kind → Option (Nat × Connective)
  | .keyword .or => some (0, logical .or)
  | .keyword .and => some (1, logical .and)
  | .mark .equalEqual => some (2, binary .equalEqual)
  | .mark .bangEqual => some (2, binary .bangEqual)
  | .mark .greater => some (3, binary .greater)
  | .mark .greaterEqual => some (3, binary .greaterEqual)
  | .mark .less => some (3, binary .less)
  | .mark .lessEqual => some (3, binary .lessEqual)
  | .mark .plus => some (4, binary .plus)
  | .mark .minus => some (4, binary .minus)
  | .mark .star => some (5, binary .star)
  | .mark .slash => some (5, binary .slash)
  | .mark .percent => some (5, binary .percent)
  | _ => none

/-- The token's operator, if it is of the given level. -/
def at? (level : Nat) (kind : Token.Kind) : Option Connective :=
  match ofKind? kind with
  | some (l, c) => if l = level then some c else none
  | none => none

end Connective

/-- What an assignment mark does: it stores a value, or combines it with the old one first. -/
inductive Assignment where
  | store
  | combine (op : Mark)
deriving DecidableEq, Repr

def Assignment.ofMark? : Mark → Option Assignment
  | .equal => some .store
  | .plusEqual => some (.combine .plus)
  | .minusEqual => some (.combine .minus)
  | .starEqual => some (.combine .star)
  | .slashEqual => some (.combine .slash)
  | .percentEqual => some (.combine .percent)
  | _ => none

/-- A unary operator, or a step that adds or takes away one. -/
inductive Leading where
  | operator (op : Mark)
  | increment (op : Mark)
deriving DecidableEq, Repr

def Leading.ofMark? : Mark → Option Leading
  | .bang => some (.operator .bang)
  | .minus => some (.operator .minus)
  | .plusPlus => some (.increment .plus)
  | .minusMinus => some (.increment .minus)
  | _ => none

end Lox
