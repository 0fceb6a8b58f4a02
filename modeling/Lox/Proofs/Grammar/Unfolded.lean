import Lox.Proofs.Syntax.Bare
import Lox.Proofs.Syntax.Spine

/-!
# Long forms

Compound assignments and steps can be written out as the assignments that they stand for, and `for` statements as loops. The
grammar says here, for a text in which some of them are chosen, what the text is then. An operator or a word is chosen with its
token.
-/

namespace Lox

open Token (Kind)

/-- A token of a text, and whether what it stands for is to be written out. -/
structure Choice where
  token : Token
  long : Bool

namespace Choice

variable (c : Choice)

def kind : Kind := c.token.kind

def line : Nat := c.token.line

/-- A token that is written in its place. -/
def put (kind : Kind) : Token := ⟨kind, c.line⟩

end Choice

/-! ## Trees -/

/-- What the assignment of the value to the target is read as, if it can be assigned to. -/
def Expr.assigned? (target value : Expr) : Option Expr :=
  match target with
  | .var _ name => some (.assign 0 name value)
  | .get object name => some (.set object name value)
  | _ => none

/-- The body is an expression. -/
def isShortBody : List Stmt → Bool
  | [.returns .expressionBody _ _] => true
  | _ => false

/-- The expression ends in a lambda whose body is an expression, so that no operator after it is its own. -/
def Expr.isOpen : Expr → Bool
  | .unary _ _ e => e.isOpen
  | .binary _ _ _ e => e.isOpen
  | .logical _ _ _ e => e.isOpen
  | .lambda _ ⟨_, body⟩ => isShortBody body
  | _ => false

def Token.Kind.literal? : Kind → Option Literal
  | .keyword .nil => some .nil
  | .keyword .false => some (.bool false)
  | .keyword .true => some (.bool true)
  | .number _ x => some (.number x)
  | .string s => some (.string s)
  | _ => none

/-- What the target gets from an assignment of the form. -/
def Assignment.value (form : Assignment) (line : Nat) (target operand : Expr) : Expr :=
  match form with
  | .store => operand
  | .combine op => .binary op line target operand

/-! ## Texts -/

/-- `T op= E` is `T = T op (E)` when it is written out. -/
def Assignment.written (form : Assignment) (c : Choice) (long : Bool) (target operand : List Token) : List Token :=
  match form, long with
  | .combine op, true =>
    target ++ c.put (.mark .equal) :: (target ++ c.put (.mark op) :: c.put (.mark .leftParen) :: (operand ++ [c.put (.mark .rightParen)]))
  | _, _ => target ++ c.token :: operand

/-- `++T` is `(T = T + 1)` when it is written out. -/
def stepWritten (op : Mark) (c : Choice) (long : Bool) (target : List Token) : List Token :=
  if long then
    c.put (.mark .leftParen) :: (target ++ c.put (.mark .equal) :: (target ++
      [c.put (.mark op), c.put (.number "1" 1), c.put (.mark .rightParen)]))
  else c.token :: target

/-- The condition that a `while` needs. -/
def writtenCondition (c : Choice) : Option Expr → List Token → List Token
  | none, _ => [c.put (.keyword .true)]
  | some _, condition => condition

/-- `S` with the increment behind it. -/
def writtenBody (c : Choice) : Option Expr → (increment body : List Token) → List Token
  | none, _, body => body
  | some _, increment, body =>
    c.put (.mark .leftBrace) :: (body ++ (increment ++ [c.put (.mark .semicolon), c.put (.mark .rightBrace)]))

/-- A loop with the initializer before it. -/
def writtenLoop (c : Choice) : Option Stmt → (initializer loop : List Token) → List Token
  | none, _, loop => loop
  | some _, initializer, loop => c.put (.mark .leftBrace) :: (initializer ++ (loop ++ [c.put (.mark .rightBrace)]))

/-! ## Passages -/

/-- What a rule of the grammar can read. -/
inductive Passage where
  | expression (e : Expr)
  | operand (level : Nat) (e : Expr)
  /-- Operators of the level, and their right sides. -/
  | chain (level : Nat) (left e : Expr)
  | unary (e : Expr)
  | call (e : Expr)
  /-- Calls and properties of `head`. -/
  | suffixes (head e : Expr)
  | arguments (es : List Expr)
  | primary (e : Expr)
  | names (xs : List Name)
  /-- Names and the parenthesis behind them. -/
  | parameters (xs : List Name)
  | body (closed : Bool) (sts : List Stmt)
  | block (sts : List Stmt)
  | declarations (sts : List Stmt)
  | declaration (st : Stmt)
  | superclass (ref : Option Reference)
  | members (methods statics : List Method)
  | method (m : Method)
  /-- A variable, behind `var`. -/
  | variable (st : Stmt)
  /-- A statement that may end with a branch to which an `else` after it would belong. -/
  | statement (dangling : Bool) (st : Stmt)
  | optional (e : Option Expr)
  | initializer (st : Option Stmt)

section
variable (loops : Bool)

/-- The tokens stand for the passage, and give the text where what has been chosen is written out: loops, or else updates. -/
inductive Unfolds : Passage → List Choice → List Token → Prop where
  -- expressions
  | plain {e cs ts} : Unfolds (.operand 0 e) cs ts → Unfolds (.expression e) cs ts
  | assign {c m form target operand e ct co tt to'} : c.kind = .mark m → Assignment.ofMark? m = some form →
    Unfolds (.call target) ct tt → Unfolds (.expression operand) co to' →
    target.assigned? (form.value c.line target operand) = some e →
    Unfolds (.expression e) (ct ++ c :: co) (form.written c (c.long && !loops) tt to')
  | operators {level left e cl cs tl ts} : level < Connective.levels → Unfolds (.operand (level + 1) left) cl tl →
    Unfolds (.chain level left e) cs ts → Unfolds (.operand level e) (cl ++ cs) (tl ++ ts)
  | strongest {e cs ts} : Unfolds (.unary e) cs ts → Unfolds (.operand Connective.levels e) cs ts
  | chainEnd {level e} : Unfolds (.chain level e e) [] []
  | operator {c op level left right e cr cs tr ts} : Connective.at? level c.kind = some op → left.isOpen = false →
    Unfolds (.operand (level + 1) right) cr tr → Unfolds (.chain level (op.join c.line left right) e) cs ts →
    Unfolds (.chain level left e) (c :: (cr ++ cs)) (c.token :: (tr ++ ts))
  | leading {c m op e cs ts} : c.kind = .mark m → Leading.ofMark? m = some (.operator op) → Unfolds (.unary e) cs ts →
    Unfolds (.unary (.unary op c.line e)) (c :: cs) (c.token :: ts)
  | step {c m op target e cs ts} : c.kind = .mark m → Leading.ofMark? m = some (.increment op) →
    Unfolds (.call target) cs ts → target.assigned? (.binary op c.line target (.literal (.number 1))) = some e →
    Unfolds (.unary e) (c :: cs) (stepWritten op c (c.long && !loops) ts)
  | called {e cs ts} : Unfolds (.call e) cs ts → Unfolds (.unary e) cs ts
  | suffixed {head e ch cs th ts} : Unfolds (.primary head) ch th → Unfolds (.suffixes head e) cs ts →
    Unfolds (.call e) (ch ++ cs) (th ++ ts)
  | suffixEnd {e} : Unfolds (.suffixes e e) [] []
  | invoked {c d head es e ca cs ta ts} : c.kind = .mark .leftParen → head.isOpen = false → es.length ≤ maxArity →
    Unfolds (.arguments es) ca ta → d.kind = .mark .rightParen → Unfolds (.suffixes (.call head d.line es) e) cs ts →
    Unfolds (.suffixes head e) (c :: (ca ++ d :: cs)) (c.token :: (ta ++ d.token :: ts))
  | got {c d x head e cs ts} : c.kind = .mark .dot → head.isOpen = false → d.kind = .identifier x →
    Unfolds (.suffixes (.get head ⟨x, d.line⟩) e) cs ts →
    Unfolds (.suffixes head e) (c :: d :: cs) (c.token :: d.token :: ts)
  | noArguments : Unfolds (.arguments []) [] []
  | lastArgument {e cs ts} : Unfolds (.expression e) cs ts → Unfolds (.arguments [e]) cs ts
  | argument {c e e' es ce cs te ts} : Unfolds (.expression e) ce te → c.kind = .mark .comma →
    Unfolds (.arguments (e' :: es)) cs ts → Unfolds (.arguments (e :: e' :: es)) (ce ++ c :: cs) (te ++ c.token :: ts)
  | literal {c value} : c.kind.literal? = some value → Unfolds (.primary (.literal value)) [c] [c.token]
  | this {c} : c.kind = .keyword .this → Unfolds (.primary (.this 0 c.line)) [c] [c.token]
  | super {c d f x} : c.kind = .keyword .super → d.kind = .mark .dot → f.kind = .identifier x →
    Unfolds (.primary (.super 0 c.line ⟨x, f.line⟩)) [c, d, f] [c.token, d.token, f.token]
  | var {c x} : c.kind = .identifier x → Unfolds (.primary (.var 0 ⟨x, c.line⟩)) [c] [c.token]
  | group {c d e cs ts} : c.kind = .mark .leftParen → Unfolds (.expression e) cs ts → d.kind = .mark .rightParen →
    Unfolds (.primary (.group e)) (c :: (cs ++ [d])) (c.token :: (ts ++ [d.token]))
  | lambda {c d xs sts cp cb tp tb} : c.kind = .keyword .fun → d.kind = .mark .leftParen → Unfolds (.parameters xs) cp tp →
    Unfolds (.body false sts) cb tb →
    Unfolds (.primary (.lambda c.line ⟨xs, sts⟩)) (c :: d :: (cp ++ cb)) (c.token :: d.token :: (tp ++ tb))
  -- functions and classes
  | noNames : Unfolds (.names []) [] []
  | lastName {c x} : c.kind = .identifier x → Unfolds (.names [⟨x, c.line⟩]) [c] [c.token]
  | name {c d x y xs cs ts} : c.kind = .identifier x → d.kind = .mark .comma → Unfolds (.names (y :: xs)) cs ts →
    Unfolds (.names (⟨x, c.line⟩ :: y :: xs)) (c :: d :: cs) (c.token :: d.token :: ts)
  | parameters {c xs cs ts} : xs.length ≤ maxArity → Unfolds (.names xs) cs ts → c.kind = .mark .rightParen →
    Unfolds (.parameters xs) (cs ++ [c]) (ts ++ [c.token])
  | blockBody {c closed sts cs ts} : c.kind = .mark .leftBrace → Unfolds (.block sts) cs ts →
    Unfolds (.body closed sts) (c :: cs) (c.token :: ts)
  | shortBody {c closed e cs ts} {ending : List Choice} : c.kind = .mark .colon → Unfolds (.expression e) cs ts →
    ending.map Choice.kind = endKinds closed →
    Unfolds (.body closed [.returns .expressionBody c.line (some e)]) (c :: (cs ++ ending))
      (c.token :: (ts ++ ending.map Choice.token))
  | block {c sts cs ts} : Unfolds (.declarations sts) cs ts → c.kind = .mark .rightBrace →
    Unfolds (.block sts) (cs ++ [c]) (ts ++ [c.token])
  | noDeclarations : Unfolds (.declarations []) [] []
  | declarations {st sts c cs t ts} : Unfolds (.declaration st) c t → Unfolds (.declarations sts) cs ts →
    Unfolds (.declarations (st :: sts)) (c ++ cs) (t ++ ts)
  | variableDeclaration {c st cs ts} : c.kind = .keyword .var → Unfolds (.variable st) cs ts →
    Unfolds (.declaration st) (c :: cs) (c.token :: ts)
  | functionDeclaration {c d f x xs sts cp cb tp tb} : c.kind = .keyword .fun → d.kind = .identifier x →
    f.kind = .mark .leftParen → Unfolds (.parameters xs) cp tp → Unfolds (.body true sts) cb tb →
    Unfolds (.declaration (.funDecl ⟨x, d.line⟩ ⟨xs, sts⟩)) (c :: d :: f :: (cp ++ cb))
      (c.token :: d.token :: f.token :: (tp ++ tb))
  | classDeclaration {c d f g x ref methods statics cr cm tr tm} : c.kind = .keyword .klass → d.kind = .identifier x →
    Unfolds (.superclass ref) cr tr → f.kind = .mark .leftBrace → Unfolds (.members methods statics) cm tm →
    g.kind = .mark .rightBrace →
    Unfolds (.declaration (.classDecl ⟨x, d.line⟩ ref methods statics)) (c :: d :: (cr ++ f :: (cm ++ [g])))
      (c.token :: d.token :: (tr ++ f.token :: (tm ++ [g.token])))
  | statementDeclaration {dangling st cs ts} : Unfolds (.statement dangling st) cs ts → Unfolds (.declaration st) cs ts
  | noSuperclass : Unfolds (.superclass none) [] []
  | superclass {c d x} : c.kind = .mark .colon → d.kind = .identifier x →
    Unfolds (.superclass (some ⟨0, ⟨x, d.line⟩⟩)) [c, d] [c.token, d.token]
  | noMembers : Unfolds (.members [] []) [] []
  | instanceMember {m methods statics c cs t ts} : Unfolds (.method m) c t → Unfolds (.members methods statics) cs ts →
    Unfolds (.members (m :: methods) statics) (c ++ cs) (t ++ ts)
  | staticMember {k m methods statics c cs t ts} : k.kind = .keyword .klass → Unfolds (.method m) c t →
    Unfolds (.members methods statics) cs ts →
    Unfolds (.members methods (m :: statics)) (k :: (c ++ cs)) (k.token :: (t ++ ts))
  | getter {c x sts cs ts} : c.kind = .identifier x → Unfolds (.body true sts) cs ts →
    Unfolds (.method ⟨⟨x, c.line⟩, true, ⟨[], sts⟩⟩) (c :: cs) (c.token :: ts)
  | method {c d x xs sts cp cb tp tb} : c.kind = .identifier x → d.kind = .mark .leftParen → Unfolds (.parameters xs) cp tp →
    Unfolds (.body true sts) cb tb →
    Unfolds (.method ⟨⟨x, c.line⟩, false, ⟨xs, sts⟩⟩) (c :: d :: (cp ++ cb)) (c.token :: d.token :: (tp ++ tb))
  | declared {c d x} : c.kind = .identifier x → d.kind = .mark .semicolon →
    Unfolds (.variable (.varDecl ⟨x, c.line⟩ none)) [c, d] [c.token, d.token]
  | initialized {c d f x e cs ts} : c.kind = .identifier x → d.kind = .mark .equal → Unfolds (.expression e) cs ts →
    f.kind = .mark .semicolon →
    Unfolds (.variable (.varDecl ⟨x, c.line⟩ (some e))) (c :: d :: (cs ++ [f])) (c.token :: d.token :: (ts ++ [f.token]))
  -- statements
  | expr {c dangling e cs ts} : Unfolds (.expression e) cs ts → c.kind = .mark .semicolon →
    Unfolds (.statement dangling (.expr e)) (cs ++ [c]) (ts ++ [c.token])
  | print {c d dangling e cs ts} : c.kind = .keyword .print → Unfolds (.expression e) cs ts → d.kind = .mark .semicolon →
    Unfolds (.statement dangling (.print e)) (c :: (cs ++ [d])) (c.token :: (ts ++ [d.token]))
  | blockStatement {c dangling sts cs ts} : c.kind = .mark .leftBrace → Unfolds (.block sts) cs ts →
    Unfolds (.statement dangling (.block sts)) (c :: cs) (c.token :: ts)
  | returns {c d dangling e cs ts} : c.kind = .keyword .return → Unfolds (.optional e) cs ts → d.kind = .mark .semicolon →
    Unfolds (.statement dangling (.returns .keyword c.line e)) (c :: (cs ++ [d])) (c.token :: (ts ++ [d.token]))
  | breaks {c d dangling} : c.kind = .keyword .break → d.kind = .mark .semicolon →
    Unfolds (.statement dangling (.breaks c.line)) [c, d] [c.token, d.token]
  | branch {c d f dangling condition st cc cs tc ts} : c.kind = .keyword .if → d.kind = .mark .leftParen →
    Unfolds (.expression condition) cc tc → f.kind = .mark .rightParen → Unfolds (.statement dangling st) cs ts →
    Unfolds (.statement true (.branch condition st none)) (c :: d :: (cc ++ f :: cs))
      (c.token :: d.token :: (tc ++ f.token :: ts))
  | branches {c d f g dangling condition st other cc cs co tc ts to'} : c.kind = .keyword .if → d.kind = .mark .leftParen →
    Unfolds (.expression condition) cc tc → f.kind = .mark .rightParen → Unfolds (.statement false st) cs ts →
    g.kind = .keyword .else → Unfolds (.statement dangling other) co to' →
    Unfolds (.statement dangling (.branch condition st (some other))) (c :: d :: (cc ++ f :: (cs ++ g :: co)))
      (c.token :: d.token :: (tc ++ f.token :: (ts ++ g.token :: to')))
  | loop {c d f dangling condition st cc cs tc ts} : c.kind = .keyword .while → d.kind = .mark .leftParen →
    Unfolds (.expression condition) cc tc → f.kind = .mark .rightParen → Unfolds (.statement dangling st) cs ts →
    Unfolds (.statement dangling (.loop condition st)) (c :: d :: (cc ++ f :: cs))
      (c.token :: d.token :: (tc ++ f.token :: ts))
  | forLoop {c d f g dangling first condition increment st ci cc cn cs ti tc tn ts} : c.kind = .keyword .for →
    d.kind = .mark .leftParen → Unfolds (.initializer first) ci ti → Unfolds (.optional condition) cc tc →
    f.kind = .mark .semicolon → Unfolds (.optional increment) cn tn → g.kind = .mark .rightParen →
    Unfolds (.statement dangling st) cs ts →
    Unfolds (.statement dangling (Parse.forLoop first condition increment st))
      (c :: d :: (ci ++ (cc ++ f :: (cn ++ g :: cs))))
      (if c.long && loops then
        writtenLoop c first ti (c.put (.keyword .while) :: c.put (.mark .leftParen) ::
          (writtenCondition c condition tc ++ c.put (.mark .rightParen) :: writtenBody c increment tn ts))
      else c.token :: d.token :: (ti ++ (tc ++ f.token :: (tn ++ g.token :: ts))))
  | absent : Unfolds (.optional none) [] []
  | present {e cs ts} : Unfolds (.expression e) cs ts → Unfolds (.optional (some e)) cs ts
  | noInitializer {c} : c.kind = .mark .semicolon → Unfolds (.initializer none) [c] [c.token]
  | variableInitializer {c st cs ts} : c.kind = .keyword .var → Unfolds (.variable st) cs ts →
    Unfolds (.initializer (some st)) (c :: cs) (c.token :: ts)
  | exprInitializer {c e cs ts} : Unfolds (.expression e) cs ts → c.kind = .mark .semicolon →
    Unfolds (.initializer (some (.expr e))) (cs ++ [c]) (ts ++ [c.token])

end

end Lox
