import Lox.Proofs.Grammar.Spelled
import Lox.Proofs.Syntax.Alike
import Lox.Proofs.Syntax.Spine

/-!
# What a rule finds

A rule that comes upon tokens of the right kinds reads just them, and reports nothing. Where it goes on as long as it can,
what comes next has to be something else.
-/

namespace Lox

open Token (Kind)

/-- Coming upon tokens of the kinds `ks`, with `rest` behind them, the rule reads the former and gives a result as in `S`,
unless its fuel runs out. -/
def Finds {α : Type} (rule : Parse α) (S : α → Prop) (ks rest : List Kind) : Prop :=
  ∀ r : Reader, r.kinds = ks ++ rest → rule r = .exhausted ∨
    ∃ a r', rule r = .done a r' ∧ S a ∧ r'.kinds = rest ∧ r'.errors = r.errors

namespace Finds

section
variable {α β : Type} {rule : Parse α} {next : α → Parse β} {S S' : α → Prop} {T : β → Prop} {ks ks' rest : List Kind}

theorem exhausted : Finds Run.exhausted S ks rest := fun _ _ => .inl rfl

theorem pure {a : α} (h : S a) : Finds (Pure.pure a) S [] rest := fun r hr => .inr ⟨a, r, rfl, h, hr, rfl⟩

theorem imp (h : Finds rule S ks rest) (hs : ∀ a, S a → S' a) : Finds rule S' ks rest := fun r hr =>
  (h r hr).imp_right fun ⟨a, r', hd, ha, hk, he⟩ => ⟨a, r', hd, hs a ha, hk, he⟩

theorem bind (h : Finds rule S ks (ks' ++ rest)) (hn : ∀ a, S a → Finds (next a) T ks' rest) :
    Finds (rule >>= next) T (ks ++ ks') rest := by
  intro r hr
  rw [List.append_assoc] at hr
  rw [Run.bind_apply]
  rcases h r hr with h | ⟨a, r₁, h, ha, hk, he⟩
  · rw [h]
    exact .inl rfl
  · rw [h]
    rcases hn a ha r₁ hk with hn | ⟨b, r₂, hn, hb, hk₂, he₂⟩
    · exact .inl hn
    · exact .inr ⟨b, r₂, hn, hb, hk₂, he₂.trans he⟩

/-- The first rule reads nothing. -/
theorem silent (h : Finds rule S [] (ks ++ rest)) (hn : ∀ a, S a → Finds (next a) T ks rest) :
    Finds (rule >>= next) T ks rest :=
  (h.bind hn : Finds _ T ([] ++ ks) rest)

/-- The first rule reads one token. -/
theorem head {kind : Kind} (h : Finds rule S [kind] (ks ++ rest)) (hn : ∀ a, S a → Finds (next a) T ks rest) :
    Finds (rule >>= next) T (kind :: ks) rest :=
  (h.bind hn : Finds _ T ([kind] ++ ks) rest)

/-- The first rule reads everything. -/
theorem whole (h : Finds rule S ks rest) (hn : ∀ a, S a → Finds (next a) T [] rest) : Finds (rule >>= next) T ks rest :=
  List.append_nil ks ▸ h.bind hn

theorem map {f : α → β} (h : Finds rule S ks rest) (hf : ∀ a, S a → T (f a)) : Finds (f <$> rule) T ks rest :=
  h.whole fun a ha => .pure (hf a ha)

end

end Finds

namespace Parse

section
variable {α β : Type} {rule : Parse α} {S : α → Prop} {T : β → Prop} {ks rest : List Kind} {kind : Kind}

/-! ## Single tokens -/

theorem kinds_skip {r : Reader} (h : r.kinds = kind :: ks) : r.skip.kinds = ks := by
  have hk : r.kind? = some kind := by rw [← r.head?_kinds, h]; rfl
  rw [Reader.kinds_of_kind hk] at h
  exact (List.cons.inj h).2

theorem finds_skip {next : Unit → Parse β} (hn : Finds (next ()) T ks rest) : Finds (skip >>= next) T (kind :: ks) rest :=
  fun r hr => hn r.skip (kinds_skip hr)

theorem finds_peek {next : Option Kind → Parse β} (hn : Finds (next (ks ++ rest).head?) T ks rest) :
    Finds (kind? >>= next) T ks rest := by
  intro r hr
  have hk : r.kind? = (ks ++ rest).head? := by rw [← r.head?_kinds, hr]
  have h := hn r hr
  rw [← hk] at h
  exact h

theorem finds_read {f : Reader → α} {next : α → Parse β} (hn : ∀ a, Finds (next a) T ks rest) :
    Finds (Run.read f >>= next) T ks rest := fun r hr => hn (f r) r hr

theorem finds_line {next : Nat → Parse β} (hn : ∀ line, Finds (next line) T ks rest) : Finds (line >>= next) T ks rest :=
  finds_read hn

theorem finds_freshId {next : NodeId → Parse β} (hn : ∀ id, Finds (next id) T ks rest) :
    Finds (freshId >>= next) T ks rest := fun r hr => hn r.nextId { r with nextId := r.nextId + 1 } hr

theorem finds_accepted : Finds (accept kind) (· = true) [kind] rest := by
  intro r hr
  have hk : r.kind? = some kind := by rw [← r.head?_kinds, hr]; rfl
  rw [accept, if_pos hk]
  exact .inr ⟨true, r.skip, rfl, rfl, kinds_skip hr, rfl⟩

theorem finds_notAccepted (hne : rest.head? ≠ some kind) : Finds (accept kind) (· = false) [] rest := by
  intro r hr
  have hk : r.kind? ≠ some kind := by rw [← r.head?_kinds, hr]; exact hne
  rw [accept, if_neg hk]
  exact .inr ⟨false, r, rfl, rfl, hr, rfl⟩

theorem finds_yes {yes no : Parse β} (hy : Finds yes T ks rest) :
    Finds (do if ← accept kind then yes else no) T (kind :: ks) rest := by
  refine finds_accepted.head fun found hfound => ?_
  subst hfound
  exact hy

theorem finds_no {yes no : Parse β} (hne : (ks ++ rest).head? ≠ some kind) (hn : Finds no T ks rest) :
    Finds (do if ← accept kind then yes else no) T ks rest := by
  refine (finds_notAccepted hne).silent fun found hfound => ?_
  subst hfound
  exact hn

theorem finds_other {k : Kind} {yes no : Parse β} (hne : (k == kind) = false) (hn : Finds no T (k :: ks) rest) :
    Finds (do if ← accept kind then yes else no) T (k :: ks) rest :=
  finds_no (fun h => beq_eq_false_iff_ne.1 hne (Option.some.inj h)) hn

theorem finds_mark {m : Mark} {place : Place} {next : Nat → Parse β} (hn : ∀ line, Finds (next line) T ks rest) :
    Finds (expectMark m place >>= next) T (.mark m :: ks) rest := by
  intro r hr
  have hk : r.kind? = some (.mark m) := by rw [← r.head?_kinds, hr]; rfl
  rw [Run.bind_apply, expectMark, if_pos hk]
  exact hn r.line r.skip (kinds_skip hr)

theorem finds_name {text : String} {fault : SyntaxFault} {next : Name → Parse β}
    (hn : ∀ name : Name, name.text = text → Finds (next name) T ks rest) :
    Finds (expectName fault >>= next) T (.identifier text :: ks) rest := by
  intro r hr
  have hk : r.kind? = some (.identifier text) := by rw [← r.head?_kinds, hr]; rfl
  have hname : expectName fault r = .done { text, line := r.line } r.skip := by unfold expectName; rw [hk]
  rw [Run.bind_apply, hname]
  exact hn _ rfl r.skip (kinds_skip hr)

theorem finds_recover (h : Finds rule S ks rest) :
    Finds (recover rule) (fun found => ∃ a, found = some a ∧ S a) ks rest := by
  intro r hr
  unfold recover
  rcases h r hr with h | ⟨a, r', h, ha, hk, he⟩
  · rw [h]
    exact .inl rfl
  · rw [h]
    exact .inr ⟨some a, r', rfl, ⟨a, rfl, ha⟩, hk, he⟩

/-- Two ways to go on that depend on what comes next. -/
theorem finds_look {look : Parse Bool} {p : Option Kind → Bool} (hlook : ∀ r, look r = .done (p r.kind?) r)
    {yes no : Parse β} (h : Finds (if p (ks ++ rest).head? then yes else no) T ks rest) :
    Finds (do if ← look then yes else no) T ks rest := by
  intro r hr
  rw [Run.bind_apply, hlook, ← r.head?_kinds, hr]
  exact h r hr

theorem finds_functionDeclaration {yes no : Parse β} {name : String}
    (hy : Finds yes T (.keyword .fun :: .identifier name :: ks) rest) :
    Finds (do if ← atFunctionDeclaration then yes else no) T (.keyword .fun :: .identifier name :: ks) rest := by
  rintro ⟨tokens, endLine, nextId, errors⟩ hr
  obtain ⟨⟨_, line⟩, ts, rfl, rfl, hts⟩ := List.map_eq_cons_iff.mp hr
  obtain ⟨⟨_, line'⟩, ts, rfl, rfl, -⟩ := List.map_eq_cons_iff.mp hts
  exact hy _ hr

theorem finds_noFunctionDeclaration {yes no : Parse β}
    (hne : ∀ name more, ks ++ rest ≠ .keyword .fun :: .identifier name :: more) (hn : Finds no T ks rest) :
    Finds (do if ← atFunctionDeclaration then yes else no) T ks rest := by
  rintro ⟨tokens, endLine, nextId, errors⟩ hr
  have hat : atFunctionDeclaration ⟨tokens, endLine, nextId, errors⟩ = .done false ⟨tokens, endLine, nextId, errors⟩ := by
    simp only [atFunctionDeclaration, Run.read_apply, Outcome.done.injEq, and_true]
    split
    · exact absurd hr.symm (hne _ _)
    · rfl
  rw [Run.bind_apply, hat]
  exact hn _ hr

/-! ## Optional parts -/

theorem finds_before {m : Mark} {yes no : Parse β} (hk : (ks ++ rest).head? = some kind) (hne : kind ≠ .mark m)
    (hy : Finds yes T ks rest) : Finds (do if ← before m then yes else no) T ks rest :=
  finds_look (p := fun kind => kind.isSome && kind ≠ some (.mark m)) (fun _ => rfl) (by simpa [hk, hne] using hy)

theorem finds_notBefore {m : Mark} {yes no : Parse β} (hrest : rest.head? = some (.mark m)) (hn : Finds no T [] rest) :
    Finds (do if ← before m then yes else no) T [] rest :=
  finds_look (p := fun kind => kind.isSome && kind ≠ some (.mark m)) (fun _ => rfl) (by simpa [hrest] using hn)

theorem finds_absent {m : Mark} (hrest : rest.head? = some (.mark m)) : Finds (unlessAt m rule) (· = none) [] rest :=
  finds_look (p := fun kind => kind = some (.mark m)) (fun _ => rfl) (by simpa [hrest] using .pure rfl)

theorem finds_present {m : Mark} (hne : (ks ++ rest).head? ≠ some (.mark m)) (h : Finds rule S ks rest) :
    Finds (unlessAt m rule) (fun found => ∃ a, found = some a ∧ S a) ks rest :=
  have hsome : Finds (some <$> rule) (fun found => ∃ a, found = some a ∧ S a) ks rest := h.map fun a ha => ⟨a, rfl, ha⟩
  finds_look (p := fun kind => kind = some (.mark m)) (fun _ => rfl) (by rwa [decide_eq_false hne])

theorem finds_ifAccepted (h : Finds rule S ks rest) :
    Finds (ifAccepted kind rule) (fun found => ∃ a, found = some a ∧ S a) (kind :: ks) rest :=
  finds_yes (h.map fun a ha => ⟨a, rfl, ha⟩)

theorem finds_ifNotAccepted (hne : rest.head? ≠ some kind) : Finds (ifAccepted kind rule) (· = none) [] rest :=
  finds_no hne (.pure rfl)

theorem finds_checkCount {count : Nat} {fault : SyntaxFault} (h : count < maxArity) :
    Finds (checkCount count fault) (fun _ => True) [] rest := by
  rw [checkCount, if_neg (Nat.not_le.mpr h)]
  exact .pure trivial

theorem finds_endBody (closed : Bool) : Finds (endBody closed) (fun _ => True) (endKinds closed) rest := by
  cases closed with
  | true => exact finds_mark fun _ => .pure trivial
  | false => exact .pure trivial

/-! ## Operators -/

theorem finds_assignment {rest : List Kind} :
    Finds acceptAssignment (fun found => ∃ site, found = some (.store, site)) [.mark .equal] rest :=
  finds_read fun site => finds_peek (finds_skip (.pure ⟨site, rfl⟩))

theorem finds_noAssignment (h : Ends Rank.assignment rest) : Finds acceptAssignment (· = none) [] rest := by
  refine finds_read fun site => finds_peek ?_
  split
  · rename_i m hm
    split
    · rename_i form hform
      exact absurd hm (h.ne (Assignment.strength hform) (Nat.le_refl _))
    · exact .pure rfl
  · exact .pure rfl

theorem finds_connective {level : Nat} {c : Connective} (h : Connective.at? level kind = some c) :
    Finds (acceptConnective level) (fun found => ∃ line, found = some (c, line)) [kind] rest := by
  refine finds_line fun line => finds_peek ?_
  dsimp only [List.singleton_append, List.head?_cons, Option.bind_some]
  rw [h]
  exact finds_skip (.pure ⟨line, rfl⟩)

theorem finds_noConnective {level : Nat} (h : Ends (level + 1) rest) :
    Finds (acceptConnective level) (· = none) [] rest := by
  refine finds_line fun line => finds_peek ?_
  split
  · rename_i c hc
    obtain ⟨kind, hk, hc⟩ := Option.bind_eq_some_iff.mp hc
    exact absurd hk (h.ne (Connective.strength hc) (Nat.le_refl _))
  · exact .pure rfl

theorem finds_leading {op : Mark} (h : op.isUnary = true) :
    Finds acceptLeading (fun found => ∃ site, found = some (.operator op, site)) [.mark op] rest := by
  refine finds_read fun site => finds_peek ?_
  have hop : Leading.ofMark? op = some (.operator op) := by cases op <;> first | rfl | cases h
  dsimp only [List.singleton_append, List.head?_cons]
  rw [hop]
  exact finds_skip (.pure ⟨site, rfl⟩)

theorem finds_noLeading (h : ∀ m, rest.head? = some (.mark m) → Leading.ofMark? m = none) :
    Finds acceptLeading (· = none) [] rest := by
  refine finds_read fun site => finds_peek ?_
  split
  · rename_i m hm
    rw [h m hm]
    exact .pure rfl
  · exact .pure rfl

/-- A value alike is assigned to a target alike. -/
theorem finds_assignTo {value value' target target' e : Expr} {site : Site} {fault : SyntaxFault}
    (h : Assigns value target e) (ht : target.Alike target') (hv : value.Alike value') :
    Finds (assignTo target' value' site fault) e.Alike [] rest := by
  cases h with
  | var =>
    obtain ⟨id', name', rfl, hname⟩ := ht.of_var
    exact finds_freshId fun id => .pure (congrArg₂ (Expr.assign 0) hname.relined hv)
  | get =>
    obtain ⟨object', name', rfl, hobject, hname⟩ := ht.of_get
    exact .pure (by rw [Expr.Alike, Expr.recoded, Expr.recoded, hobject, hname.relined, hv])

/-! ## Atoms -/

theorem finds_literal {value : Literal} (h : value.Written ks) :
    Finds atom? (fun found => ∃ e, found = some e ∧ (Expr.literal value).Alike e) ks rest := by
  refine finds_line fun line => finds_peek ?_
  match value, h with
  | .nil, rfl | .bool true, rfl | .bool false, rfl | .number _, ⟨_, rfl⟩ | .string _, rfl =>
    exact finds_skip (.pure ⟨_, rfl, rfl⟩)

theorem finds_variable (id : NodeId) (name : Name) :
    Finds atom? (fun found => ∃ e, found = some e ∧ (Expr.var id name).Alike e) [.identifier name.text] rest :=
  finds_line fun _ => finds_peek (finds_skip (finds_freshId fun _ => .pure ⟨_, rfl, rfl⟩))

theorem finds_this (id line : Nat) :
    Finds atom? (fun found => ∃ e, found = some e ∧ (Expr.this id line).Alike e) [.keyword .this] rest :=
  finds_line fun _ => finds_peek (finds_skip (finds_freshId fun _ => .pure ⟨_, rfl, rfl⟩))

theorem finds_super (id line : Nat) (method : Name) :
    Finds atom? (fun found => ∃ e, found = some e ∧ (Expr.super id line method).Alike e)
      [.keyword .super, .mark .dot, .identifier method.text] rest :=
  finds_line fun _ => finds_peek (finds_skip (finds_mark fun _ => finds_name fun _ hname => finds_freshId fun _ =>
    .pure ⟨_, rfl, congrArg (Expr.super 0 0) (Name.Alike.relined hname.symm)⟩))

theorem finds_noAtom (h : rest.head? = some (.mark .leftParen) ∨ rest.head? = some (.keyword .fun)) :
    Finds atom? (· = none) [] rest := by
  refine finds_line fun line => finds_peek ?_
  rw [List.nil_append]
  rcases h with h | h <;> rw [h] <;> exact .pure rfl

/-! ## Lists of names -/

theorem finds_parameterList : ∀ (fuel count : Nat) (params : List Name), params ≠ [] → count + params.length ≤ maxArity →
    rest.head? ≠ some (.mark .comma) → Finds (parameterList fuel count) (AlikeNames params) (nameKinds params) rest
  | 0, _, _, _, _, _ => .exhausted
  | fuel + 1, count, [x], _, hlen, hrest => by
    rw [parameterList]
    refine (finds_checkCount hlen).silent fun _ _ => finds_name fun name hname => finds_no hrest (.pure ?_)
    exact .cons hname.symm rfl
  | fuel + 1, count, x :: y :: params, _, hlen, hrest => by
    rw [parameterList]
    have hlen : count + 1 + (y :: params).length ≤ maxArity := by simpa +arith using hlen
    refine (finds_checkCount (Nat.lt_of_lt_of_le (by simp +arith) hlen)).silent fun _ _ => ?_
    refine finds_name fun name hname => finds_yes ?_
    exact (finds_parameterList fuel (count + 1) (y :: params) (List.cons_ne_nil _ _) hlen hrest).map fun _ hs => .cons hname.symm hs

/-- The parameter list without its opening parenthesis. -/
theorem finds_parameters (fuel : Nat) {params : List Name} (h : params.length ≤ maxArity) :
    Finds (parameters fuel) (AlikeNames params) (nameKinds params ++ [.mark .rightParen]) rest := by
  cases params with
  | nil => exact (finds_absent rfl).silent fun found hf => finds_mark fun _ => .pure (hf ▸ rfl)
  | cons x params =>
    have hne : (nameKinds (x :: params) ++ .mark .rightParen :: rest).head? ≠ some (.mark .rightParen) := by
      cases params <;> exact nofun
    have hlist : Finds (parameterList fuel 0) (AlikeNames (x :: params)) (nameKinds (x :: params))
        (.mark .rightParen :: rest) :=
      finds_parameterList fuel 0 (x :: params) nofun (by rwa [Nat.zero_add]) nofun
    refine (finds_present hne hlist).bind fun found hf => finds_mark fun _ => ?_
    obtain ⟨names, rfl, hnames⟩ := hf
    exact .pure hnames

theorem finds_superclass {superclass : Option Reference} (hrest : rest.head? ≠ some (.mark .colon)) :
    Finds superclass? (fun found => superclass.map (Reference.recoded .blank) = found.map (Reference.recoded .blank))
      (superclassKinds superclass) rest := by
  cases superclass with
  | none => exact finds_no hrest (.pure rfl)
  | some ref =>
    refine finds_yes (finds_name fun name hname => finds_freshId fun id => .pure ?_)
    exact congrArg (fun name => some (Reference.mk 0 name)) (Name.Alike.relined hname.symm)

end

end Parse

end Lox
