import Lox.Proofs.Grammar.Takes

/-!
# How passages begin

What an expression begins with is no statement, no declaration, and no end of one. Where it is written out, it begins
otherwise, but still as an expression does.
-/

namespace Lox

open Token (Kind)

/-- An expression can begin with the token, a step included. -/
def Token.Kind.opensExpression (kind : Kind) : Bool :=
  kind.startsExpression || kind == .mark .plusPlus || kind == .mark .minusMinus

/-- A statement can begin with the token that is no declaration. -/
def Token.Kind.opensStatement (kind : Kind) : Bool :=
  kind ∉ [.keyword .klass, .keyword .var, .keyword .else, .mark .rightBrace]

/-- The first token is such a one, and where it is `fun`, no name comes next. -/
def Opens (p : Kind → Bool) (ts : List Token) : Prop :=
  ∃ t more, ts = t :: more ∧ p t.kind = true ∧ (t.kind = .keyword .fun → next? more = some (.mark .leftParen))

namespace Opens

variable {p q : Kind → Bool} {ts rest : List Token} {t : Token} {kind : Kind}

theorem single (hp : p t.kind = true) (hne : t.kind ≠ .keyword .fun) : Opens p (t :: ts) :=
  ⟨t, ts, rfl, hp, fun h => absurd h hne⟩

/-- The kind of the first token is known. -/
theorem of_kind (ht : t.kind = kind) (hp : p kind = true) (hne : kind ≠ .keyword .fun) : Opens p (t :: ts) := by
  subst ht
  exact single hp hne

theorem append (h : Opens p ts) : Opens p (ts ++ rest) := by
  obtain ⟨t, more, rfl, hp, hf⟩ := h
  refine ⟨t, more ++ rest, rfl, hp, fun he => ?_⟩
  have hmore := hf he
  cases more with
  | nil => cases hmore
  | cons t' more => exact hmore

theorem mono (h : Opens p ts) (hpq : ∀ kind, p kind = true → q kind = true) : Opens q ts := by
  obtain ⟨t, more, rfl, hp, hf⟩ := h
  exact ⟨t, more, rfl, hpq _ hp, hf⟩

theorem next_ne (h : Opens p ts) (hk : p kind = false) : next? (ts ++ rest) ≠ some kind := by
  obtain ⟨t, more, rfl, hp, -⟩ := h
  intro he
  rw [Option.some.inj he] at hp
  exact Bool.noConfusion (hk.symm.trans hp)

theorem unnamed (h : Opens p ts) : Parse.NoFunctionDeclaration (ts ++ rest) := by
  obtain ⟨t, more, he, -, hf⟩ : Opens p (ts ++ rest) := h.append
  rw [he]
  rintro _ t' more' name ⟨⟩ hfun hname
  have hnext := hf hfun
  exact nomatch hname.symm.trans (Option.some.inj hnext)

end Opens

theorem Token.Kind.opensStatement_of_expression (kind : Kind) (h : kind.opensExpression = true) : kind.opensStatement = true := by
  cases kind with
  | mark m => cases m <;> first | rfl | cases h
  | keyword k => cases k <;> first | rfl | cases h
  | _ => rfl

/-- The first token is no end of a block or a branch. -/
def OpensDeclaration (ts : List Token) : Prop :=
  ∃ kind, next? ts = some kind ∧ kind ≠ .keyword .else ∧ kind ≠ .mark .rightBrace

theorem Opens.declaration {ts : List Token} (h : Opens Kind.opensStatement ts) : OpensDeclaration ts := by
  obtain ⟨t, more, rfl, hp, -⟩ := h
  refine ⟨t.kind, rfl, ?_, ?_⟩
  all_goals
    intro hk
    rw [hk] at hp
    cases hp

/-- What the passage begins with. -/
def Passage.Begins : Passage → List Token → Prop
  | .expression _, ts | .operand _ _, ts | .unary _, ts | .call _, ts | .primary _, ts => Opens Kind.opensExpression ts
  | .arguments es, ts => es ≠ [] → Opens Kind.opensExpression ts
  | .optional e, ts => e ≠ none → Opens Kind.opensExpression ts
  | .statement _ _, ts => Opens Kind.opensStatement ts
  | .names xs, ts => xs ≠ [] → ∃ text, next? ts = some (.identifier text)
  | .method _, ts => ∃ text, next? ts = some (.identifier text)
  | .declaration _, ts => OpensDeclaration ts
  | .initializer found, ts => found ≠ none → OpensDeclaration ts
  | _, _ => True

theorem Leading.opens {m : Mark} {form : Leading} (h : ofMark? m = some form) : (Kind.mark m).opensExpression = true := by
  cases m <;> first | rfl | cases h

theorem Token.Kind.literal_opens {kind : Kind} {value : Literal} (h : kind.literal? = some value) :
    kind.opensExpression = true ∧ kind ≠ .keyword .fun ∧ ∀ m, kind ≠ .mark m := by
  cases kind with
  | mark m => cases h
  | keyword k => cases k <;> first | (cases h; done) | exact ⟨rfl, nofun, nofun⟩
  | number => exact ⟨rfl, nofun, nofun⟩
  | string => exact ⟨rfl, nofun, nofun⟩
  | _ => cases h

theorem next?_append_of_some {ts rest : List Token} {kind : Kind} (h : next? ts = some kind) :
    next? (ts ++ rest) = some kind := by
  cases ts with
  | nil => cases h
  | cons t ts => exact h

namespace Unfolds

variable {loops : Bool} {φ : Passage} {cs : List Choice} {ts : List Token}

theorem begins (h : Unfolds loops φ cs ts) : φ.Begins ts := by
  induction h with
  | plain _ ih => exact ih
  | @assign c m form _ _ _ _ _ tt _ hc hm _ _ _ iht _ =>
    have iht : Opens Kind.opensExpression tt := iht
    unfold Assignment.written
    split <;> exact iht.append
  | operators _ _ _ ihl _ => exact Opens.append ihl
  | strongest _ ih => exact ih
  | leading hc hm _ _ => exact Opens.of_kind hc (Leading.opens hm) nofun
  | @step c m op _ _ _ ts hc hm _ _ _ =>
    change Opens _ (stepWritten ..)
    unfold stepWritten
    split
    · exact Opens.single rfl nofun
    · exact Opens.of_kind hc (Leading.opens hm) nofun
  | called _ ih => exact ih
  | suffixed _ _ ihh _ => exact Opens.append ihh
  | noArguments => exact fun h => absurd rfl h
  | lastArgument _ ih => exact fun _ => ih
  | argument _ _ _ ih _ => exact fun _ => Opens.append ih
  | literal hc =>
    obtain ⟨hopens, hne, -⟩ := Token.Kind.literal_opens hc
    exact Opens.of_kind rfl hopens hne
  | this hc => exact Opens.of_kind hc rfl nofun
  | super hc => exact Opens.of_kind hc rfl nofun
  | var hc => exact Opens.of_kind hc rfl nofun
  | group hc => exact Opens.of_kind hc rfl nofun
  | lambda hc hd =>
    exact ⟨_, _, rfl, (congrArg Kind.opensExpression hc).trans rfl, fun _ => congrArg some hd⟩
  | noNames => exact fun h => absurd rfl h
  | lastName hc => exact fun _ => ⟨_, congrArg some hc⟩
  | name hc => exact fun _ => ⟨_, congrArg some hc⟩
  | variableDeclaration hc => exact ⟨_, congrArg some hc, nofun, nofun⟩
  | functionDeclaration hc => exact ⟨_, congrArg some hc, nofun, nofun⟩
  | classDeclaration hc => exact ⟨_, congrArg some hc, nofun, nofun⟩
  | statementDeclaration _ ih => exact Opens.declaration ih
  | getter hc => exact ⟨_, congrArg some hc⟩
  | method hc => exact ⟨_, congrArg some hc⟩
  | expr _ _ ih => exact (Opens.mono ih Token.Kind.opensStatement_of_expression).append
  | print hc => exact Opens.of_kind hc rfl nofun
  | blockStatement hc => exact Opens.of_kind hc rfl nofun
  | returns hc => exact Opens.of_kind hc rfl nofun
  | breaks hc => exact Opens.of_kind hc rfl nofun
  | branch hc => exact Opens.of_kind hc rfl nofun
  | branches hc => exact Opens.of_kind hc rfl nofun
  | loop hc => exact Opens.of_kind hc rfl nofun
  | @forLoop c d f g dangling first condition increment st ci cc cn cs ti tc tn ts hc =>
    change Opens _ (ite ..)
    split
    · cases first with
      | none => exact Opens.single rfl nofun
      | some => exact Opens.single rfl nofun
    · exact Opens.of_kind hc rfl nofun
  | absent => exact fun h => absurd rfl h
  | present _ ih => exact fun _ => ih
  | noInitializer => exact fun h => absurd rfl h
  | variableInitializer hc => exact fun _ => ⟨_, congrArg some hc, nofun, nofun⟩
  | exprInitializer _ _ ih =>
    exact fun _ => Opens.declaration (Opens.mono ih Token.Kind.opensStatement_of_expression).append
  | _ => trivial

/-- No operator stands before what binds strongest. -/
theorem not_leading {e : Expr} (h : Unfolds loops (.primary e) cs ts) {rest : List Token} {m : Mark}
    (hm : next? (ts ++ rest) = some (.mark m)) : Leading.ofMark? m = none := by
  cases h with
  | literal hc => exact absurd (Option.some.inj hm) ((Token.Kind.literal_opens hc).2.2 m)
  | this hc => cases hc.symm.trans (Option.some.inj hm)
  | super hc => cases hc.symm.trans (Option.some.inj hm)
  | var hc => cases hc.symm.trans (Option.some.inj hm)
  | group hc =>
    cases hc.symm.trans (Option.some.inj hm)
    rfl
  | lambda hc => cases hc.symm.trans (Option.some.inj hm)

/-- A body does not begin as a parameter list does. -/
theorem no_parenthesis {closed : Bool} {sts : List Stmt} (h : Unfolds loops (.body closed sts) cs ts) {rest : List Token} :
    next? (ts ++ rest) ≠ some (.mark .leftParen) := by
  intro hm
  cases h with
  | blockBody hc => cases hc.symm.trans (Option.some.inj hm)
  | shortBody hc => cases hc.symm.trans (Option.some.inj hm)

end Unfolds

end Lox
