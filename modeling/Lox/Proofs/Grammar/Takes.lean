import Lox.Proofs.Grammar.Unfolded
import Lox.Proofs.Grammar.Statements

/-!
# What a rule takes

A rule that comes upon certain tokens takes just them, reports nothing, and gives a tree that resembles a known one. Here the
lines count too, since they go into the tree.
-/

namespace Lox

open Token (Kind)

/-- The kind of the token that comes next. -/
def next? (ts : List Token) : Option Kind := ts.head?.map Token.kind

theorem next?_cons {t : Token} {ts : List Token} {kind : Kind} (ht : t.kind = kind) : next? (t :: ts) = some kind :=
  congrArg some ht

theorem Ends.next_ne {rank m : Nat} {rest : List Token} {kind : Kind} (h : Ends rank (rest.map Token.kind))
    (hk : kind.strength? = some m) (hm : rank ≤ m) : next? rest ≠ some kind := by
  rw [next?, ← List.head?_map]
  exact h.ne hk hm

/-- Coming upon the tokens `ts`, with `rest` behind them, the rule takes the former and gives a result as in `S`, unless its
fuel runs out. -/
def Takes {α : Type} (rule : Parse α) (S : α → Prop) (ts rest : List Token) : Prop :=
  ∀ r : Reader, r.tokens = ts ++ rest → rule r = .exhausted ∨
    ∃ a r', rule r = .done a r' ∧ S a ∧ r'.tokens = rest ∧ r'.errors = r.errors

namespace Takes

section
variable {α β : Type} {rule : Parse α} {next : α → Parse β} {S S' : α → Prop} {T : β → Prop} {t : Token}
  {ts ts' rest : List Token}

theorem exhausted : Takes Run.exhausted S ts rest := fun _ _ => .inl rfl

theorem pure {a : α} (h : S a) : Takes (Pure.pure a) S [] rest := fun r hr => .inr ⟨a, r, rfl, h, hr, rfl⟩

theorem imp (h : Takes rule S ts rest) (hs : ∀ a, S a → S' a) : Takes rule S' ts rest := fun r hr =>
  (h r hr).imp_right fun ⟨a, r', hd, ha, ht, he⟩ => ⟨a, r', hd, hs a ha, ht, he⟩

theorem bind (h : Takes rule S ts (ts' ++ rest)) (hn : ∀ a, S a → Takes (next a) T ts' rest) :
    Takes (rule >>= next) T (ts ++ ts') rest := by
  intro r hr
  rw [List.append_assoc] at hr
  rw [Run.bind_apply]
  rcases h r hr with h | ⟨a, r₁, h, ha, ht, he⟩
  · rw [h]
    exact .inl rfl
  · rw [h]
    rcases hn a ha r₁ ht with hn | ⟨b, r₂, hn, hb, ht₂, he₂⟩
    · exact .inl hn
    · exact .inr ⟨b, r₂, hn, hb, ht₂, he₂.trans he⟩

/-- The first rule takes nothing. -/
theorem silent (h : Takes rule S [] (ts ++ rest)) (hn : ∀ a, S a → Takes (next a) T ts rest) :
    Takes (rule >>= next) T ts rest :=
  (h.bind hn : Takes _ T ([] ++ ts) rest)

/-- The first rule takes one token. -/
theorem head (h : Takes rule S [t] (ts ++ rest)) (hn : ∀ a, S a → Takes (next a) T ts rest) :
    Takes (rule >>= next) T (t :: ts) rest :=
  (h.bind hn : Takes _ T ([t] ++ ts) rest)

/-- The first rule takes everything. -/
theorem whole (h : Takes rule S ts rest) (hn : ∀ a, S a → Takes (next a) T [] rest) : Takes (rule >>= next) T ts rest :=
  List.append_nil ts ▸ h.bind hn

theorem map {f : α → β} (h : Takes rule S ts rest) (hf : ∀ a, S a → T (f a)) : Takes (f <$> rule) T ts rest :=
  h.whole fun a ha => .pure (hf a ha)

end

end Takes

namespace Parse

section
variable {α β : Type} {rule : Parse α} {S : α → Prop} {T : β → Prop} {ts rest : List Token} {t : Token} {kind : Kind}

/-! ## Single tokens -/

theorem tokens_skip {r : Reader} (h : r.tokens = t :: ts) : r.skip.tokens = ts := by
  rw [Reader.skip, h]
  rfl

theorem takes_read {f : Reader → α} {next : α → Parse β} (hn : ∀ a, Takes (next a) T ts rest) :
    Takes (Run.read f >>= next) T ts rest := fun r hr => hn (f r) r hr

theorem takes_line {next : Nat → Parse β} (hn : Takes (next t.line) T (t :: ts) rest) :
    Takes (line >>= next) T (t :: ts) rest := by
  intro r hr
  have hline : r.line = t.line := by rw [Reader.line, hr]; rfl
  have h := hn r hr
  rw [← hline] at h
  exact h

theorem takes_site {next : Site → Parse β} (hn : Takes (next (.lexeme t.lexeme t.line)) T (t :: ts) rest) :
    Takes (Run.read Reader.site >>= next) T (t :: ts) rest := by
  intro r hr
  have hsite : r.site = .lexeme t.lexeme t.line := by rw [Reader.site, hr]; rfl
  have h := hn r hr
  rw [← hsite] at h
  exact h

theorem takes_skip {next : Unit → Parse β} (hn : Takes (next ()) T ts rest) : Takes (skip >>= next) T (t :: ts) rest :=
  fun r hr => hn r.skip (tokens_skip hr)

theorem takes_peek {next : Option Kind → Parse β} (hn : Takes (next (next? (ts ++ rest))) T ts rest) :
    Takes (kind? >>= next) T ts rest := by
  intro r hr
  have hk : r.kind? = next? (ts ++ rest) := by rw [Reader.kind?, hr]; rfl
  have h := hn r hr
  rw [← hk] at h
  exact h

theorem takes_freshId {next : NodeId → Parse β} (hn : ∀ id, Takes (next id) T ts rest) :
    Takes (freshId >>= next) T ts rest := fun r hr => hn r.nextId { r with nextId := r.nextId + 1 } hr

theorem takes_accepted (ht : t.kind = kind) : Takes (accept kind) (· = true) [t] rest := by
  intro r hr
  have hk : r.kind? = some kind := by rw [Reader.kind?, hr, ← ht]; rfl
  rw [accept, if_pos hk]
  exact .inr ⟨true, r.skip, rfl, rfl, tokens_skip hr, rfl⟩

theorem takes_notAccepted (hne : next? rest ≠ some kind) : Takes (accept kind) (· = false) [] rest := by
  intro r hr
  have hk : r.kind? ≠ some kind := by rw [Reader.kind?, hr]; exact hne
  rw [accept, if_neg hk]
  exact .inr ⟨false, r, rfl, rfl, hr, rfl⟩

theorem takes_yes {yes no : Parse β} (ht : t.kind = kind) (hy : Takes yes T ts rest) :
    Takes (do if ← accept kind then yes else no) T (t :: ts) rest := by
  refine (takes_accepted ht).head fun found hfound => ?_
  subst hfound
  exact hy

theorem takes_no {yes no : Parse β} (hne : next? (ts ++ rest) ≠ some kind) (hn : Takes no T ts rest) :
    Takes (do if ← accept kind then yes else no) T ts rest := by
  refine (takes_notAccepted hne).silent fun found hfound => ?_
  subst hfound
  exact hn

/-- Another token comes next. -/
theorem takes_other {k : Kind} {yes no : Parse β} (ht : t.kind = k) (hne : (k == kind) = false) (hn : Takes no T (t :: ts) rest) :
    Takes (do if ← accept kind then yes else no) T (t :: ts) rest :=
  takes_no (fun h => beq_eq_false_iff_ne.1 hne (ht.symm.trans (Option.some.inj h))) hn

theorem takes_mark {m : Mark} {place : Place} {next : Nat → Parse β} (ht : t.kind = .mark m)
    (hn : Takes (next t.line) T ts rest) : Takes (expectMark m place >>= next) T (t :: ts) rest := by
  intro r hr
  have hk : r.kind? = some (.mark m) := by rw [Reader.kind?, hr, ← ht]; rfl
  have hline : r.line = t.line := by rw [Reader.line, hr]; rfl
  rw [Run.bind_apply, expectMark, if_pos hk, hline]
  exact hn r.skip (tokens_skip hr)

theorem takes_name {text : String} {fault : SyntaxFault} {next : Name → Parse β} (ht : t.kind = .identifier text)
    (hn : Takes (next ⟨text, t.line⟩) T ts rest) : Takes (expectName fault >>= next) T (t :: ts) rest := by
  intro r hr
  have hk : r.kind? = some (.identifier text) := by rw [Reader.kind?, hr, ← ht]; rfl
  have hline : r.line = t.line := by rw [Reader.line, hr]; rfl
  have hname : expectName fault r = .done { text, line := t.line } r.skip := by unfold expectName; rw [hk, hline]
  rw [Run.bind_apply, hname]
  exact hn r.skip (tokens_skip hr)

theorem takes_recover (h : Takes rule S ts rest) :
    Takes (recover rule) (fun found => ∃ a, found = some a ∧ S a) ts rest := by
  intro r hr
  unfold recover
  rcases h r hr with h | ⟨a, r', h, ha, ht, he⟩
  · rw [h]
    exact .inl rfl
  · rw [h]
    exact .inr ⟨some a, r', rfl, ⟨a, rfl, ha⟩, ht, he⟩

/-- Two ways to go on that depend on what comes next. -/
theorem takes_look {look : Parse Bool} {p : Option Kind → Bool} (hlook : ∀ r, look r = .done (p r.kind?) r)
    {yes no : Parse β} (h : Takes (if p (next? (ts ++ rest)) then yes else no) T ts rest) :
    Takes (do if ← look then yes else no) T ts rest := by
  intro r hr
  have hk : r.kind? = next? (ts ++ rest) := by rw [Reader.kind?, hr]; rfl
  rw [Run.bind_apply, hlook, hk]
  exact h r hr

theorem takes_functionDeclaration {yes no : Parse β} {t' : Token} {name : String} (ht : t.kind = .keyword .fun)
    (ht' : t'.kind = .identifier name) (hy : Takes yes T (t :: t' :: ts) rest) :
    Takes (do if ← atFunctionDeclaration then yes else no) T (t :: t' :: ts) rest := by
  rintro ⟨tokens, endLine, nextId, errors⟩ hr
  obtain ⟨_, line⟩ := t
  obtain ⟨_, line'⟩ := t'
  cases ht
  cases ht'
  cases hr
  exact hy _ rfl

/-- No name comes behind `fun`. -/
def NoFunctionDeclaration (ts : List Token) : Prop :=
  ∀ t t' more name, ts = t :: t' :: more → t.kind = .keyword .fun → t'.kind ≠ .identifier name

theorem NoFunctionDeclaration.of_ne (h : t.kind ≠ .keyword .fun) : NoFunctionDeclaration (t :: ts) := by
  intro _ _ _ _ he hk
  obtain ⟨rfl, -⟩ := List.cons.inj he
  exact absurd hk h

theorem takes_noFunctionDeclaration {yes no : Parse β} (hne : NoFunctionDeclaration (ts ++ rest)) (hn : Takes no T ts rest) :
    Takes (do if ← atFunctionDeclaration then yes else no) T ts rest := by
  rintro ⟨tokens, endLine, nextId, errors⟩ hr
  have hat : atFunctionDeclaration ⟨tokens, endLine, nextId, errors⟩ = .done false ⟨tokens, endLine, nextId, errors⟩ := by
    simp only [atFunctionDeclaration, Run.read_apply, Outcome.done.injEq, and_true]
    split
    · exact absurd rfl (hne _ _ _ _ hr.symm rfl)
    · rfl
  rw [Run.bind_apply, hat]
  exact hn _ hr

/-! ## Optional parts -/

theorem takes_before {m : Mark} {yes no : Parse β} (hk : next? (ts ++ rest) = some kind) (hne : kind ≠ .mark m)
    (hy : Takes yes T ts rest) : Takes (do if ← before m then yes else no) T ts rest :=
  takes_look (p := fun kind => kind.isSome && kind ≠ some (.mark m)) (fun _ => rfl) (by simpa [hk, hne] using hy)

theorem takes_notBefore {m : Mark} {yes no : Parse β} (hrest : next? rest = some (.mark m)) (hn : Takes no T [] rest) :
    Takes (do if ← before m then yes else no) T [] rest :=
  takes_look (p := fun kind => kind.isSome && kind ≠ some (.mark m)) (fun _ => rfl) (by simpa [hrest] using hn)

theorem takes_absent {m : Mark} (hrest : next? rest = some (.mark m)) : Takes (unlessAt m rule) (· = none) [] rest :=
  takes_look (p := fun kind => kind = some (.mark m)) (fun _ => rfl) (by simpa [hrest] using .pure rfl)

theorem takes_present {m : Mark} (hne : next? (ts ++ rest) ≠ some (.mark m)) (h : Takes rule S ts rest) :
    Takes (unlessAt m rule) (fun found => ∃ a, found = some a ∧ S a) ts rest :=
  have hsome : Takes (some <$> rule) (fun found => ∃ a, found = some a ∧ S a) ts rest := h.map fun a ha => ⟨a, rfl, ha⟩
  takes_look (p := fun kind => kind = some (.mark m)) (fun _ => rfl) (by rwa [decide_eq_false hne])

theorem takes_ifAccepted (ht : t.kind = kind) (h : Takes rule S ts rest) :
    Takes (ifAccepted kind rule) (fun found => ∃ a, found = some a ∧ S a) (t :: ts) rest :=
  takes_yes ht (h.map fun a ha => ⟨a, rfl, ha⟩)

theorem takes_ifNotAccepted (hne : next? rest ≠ some kind) : Takes (ifAccepted kind rule) (· = none) [] rest :=
  takes_no hne (.pure rfl)

theorem takes_checkCount {count : Nat} {fault : SyntaxFault} (h : count < maxArity) :
    Takes (checkCount count fault) (fun _ => True) [] rest := by
  rw [checkCount, if_neg (Nat.not_le.mpr h)]
  exact .pure trivial

theorem takes_endBody (closed : Bool) (h : ts.map Token.kind = endKinds closed) :
    Takes (endBody closed) (fun _ => True) ts rest := by
  cases closed with
  | true =>
    obtain ⟨t, rfl, ht⟩ := List.map_eq_singleton_iff.mp h
    exact takes_mark ht (.pure trivial)
  | false =>
    obtain rfl := List.map_eq_nil_iff.mp h
    exact .pure trivial

/-! ## Operators -/

theorem takes_assignment {m : Mark} {form : Assignment} (ht : t.kind = .mark m) (hm : Assignment.ofMark? m = some form) :
    Takes acceptAssignment (· = some (form, .lexeme t.lexeme t.line)) [t] rest := by
  refine takes_site (takes_peek ?_)
  have hnext : next? ([t] ++ rest) = some (.mark m) := next?_cons ht
  rw [hnext]
  dsimp only
  rw [hm]
  exact takes_skip (.pure rfl)

theorem takes_noAssignment (h : Ends Rank.assignment (rest.map Token.kind)) : Takes acceptAssignment (· = none) [] rest := by
  refine takes_read fun site => takes_peek ?_
  rw [List.nil_append]
  split
  · rename_i m hm
    split
    · rename_i form hform
      exact absurd hm (h.next_ne (Assignment.strength hform) (Nat.le_refl _))
    · exact .pure rfl
  · exact .pure rfl

theorem takes_connective {level : Nat} {c : Connective} (h : Connective.at? level t.kind = some c) :
    Takes (acceptConnective level) (· = some (c, t.line)) [t] rest := by
  refine takes_line (takes_peek ?_)
  have hnext : (next? ([t] ++ rest)).bind (Connective.at? level) = some c := h
  rw [hnext]
  exact takes_skip (.pure rfl)

theorem takes_noConnective {level : Nat} (h : Ends (level + 1) (rest.map Token.kind)) :
    Takes (acceptConnective level) (· = none) [] rest := by
  refine takes_read fun line => takes_peek ?_
  rw [List.nil_append]
  split
  · rename_i c hc
    obtain ⟨kind, hk, hc⟩ := Option.bind_eq_some_iff.mp hc
    exact absurd hk (h.next_ne (Connective.strength hc) (Nat.le_refl _))
  · exact .pure rfl

theorem takes_leading {m : Mark} {form : Leading} (ht : t.kind = .mark m) (hm : Leading.ofMark? m = some form) :
    Takes acceptLeading (· = some (form, .lexeme t.lexeme t.line)) [t] rest := by
  refine takes_site (takes_peek ?_)
  have hnext : next? ([t] ++ rest) = some (.mark m) := next?_cons ht
  rw [hnext]
  dsimp only
  rw [hm]
  exact takes_skip (.pure rfl)

theorem takes_noLeading (h : ∀ m, next? rest = some (.mark m) → Leading.ofMark? m = none) :
    Takes acceptLeading (· = none) [] rest := by
  refine takes_read fun site => takes_peek ?_
  rw [List.nil_append]
  split
  · rename_i m hm
    rw [h m hm]
    exact .pure rfl
  · exact .pure rfl

end

end Parse

end Lox
