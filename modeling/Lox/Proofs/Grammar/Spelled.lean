import Lox.Proofs.Grammar.Statements
import Lox.Proofs.Syntax.Spelled

/-!
# What a rule has read

Without an error, and without the words that stand for others, what a rule gives is written with the tokens that it has
read: none is skipped, and none is thought up.
-/

namespace Lox

open Token (Kind)

/-- Compound assignments and steps. -/
def Mark.isShorthand : Mark → Bool
  | .plusEqual | .minusEqual | .starEqual | .slashEqual | .percentEqual | .plusPlus | .minusMinus => true
  | _ => false

/-- What is read as something else than is written. -/
def Token.Kind.isShorthand : Kind → Bool
  | .keyword .for => true
  | .mark m => m.isShorthand
  | _ => false

/-- The kinds of the tokens before the end of the input. -/
def kindsToEnd (tokens : List Token) : List Kind := (tokens.takeWhile (·.kind ≠ .eof)).map Token.kind

namespace Reader

variable {r : Reader}

/-- The kinds of the tokens that are still to be read. -/
def kinds (r : Reader) : List Kind := r.tokens.map Token.kind

theorem head?_kinds (r : Reader) : r.kinds.head? = r.kind? := List.head?_map

theorem kinds_of_kind {kind : Kind} (h : r.kind? = some kind) : r.kinds = kind :: r.skip.kinds := by
  unfold kinds kind? skip at *
  cases ht : r.tokens with
  | nil => rw [ht] at h; cases h
  | cons t ts => rw [ht] at h; cases h; rfl

theorem Later.kinds {r' : Reader} (h : r.Later r') : ∃ ks, r.kinds = ks ++ r'.kinds := by
  obtain ⟨ts, ht⟩ := h.tokens
  exact ⟨ts.map Token.kind, by rw [Reader.kinds, ← ht, List.map_append]; rfl⟩

end Reader

/-- Where the rule gives a result and reports nothing, the result, the kinds of the tokens that it has read and those
that are left are as `Q` says. -/
def Spells {α : Type} (rule : Parse α) (Q : α → List Kind → List Kind → Prop) : Prop :=
  ∀ r, match rule r with
    | .done a r' => r.Later r' ∧ (r'.errors = r.errors → (∀ k ∈ r.kinds, k.isShorthand = false) →
        ∃ ks, r.kinds = ks ++ r'.kinds ∧ Q a ks r'.kinds)
    | .failed _ r' => r.Later r'
    | .exhausted => True

namespace Spells

section
variable {α β : Type} {rule : Parse α} {next : α → Parse β} {Q Q' : α → List Kind → List Kind → Prop}
  {T : β → List Kind → List Kind → Prop}

theorem of_done {r r' : Reader} {a : α} (h : Spells rule Q) (hr : rule r = .done a r') : r.Later r' ∧
    (r'.errors = r.errors → (∀ k ∈ r.kinds, k.isShorthand = false) → ∃ ks, r.kinds = ks ++ r'.kinds ∧ Q a ks r'.kinds) := by
  have h := h r
  rw [hr] at h
  exact h

theorem pure {a : α} (h : ∀ rest, Q a [] rest) : Spells (Pure.pure a) Q :=
  fun r => ⟨.refl r, fun _ _ => ⟨[], rfl, h _⟩⟩

theorem exhausted : Spells Run.exhausted Q := fun _ => trivial

theorem fail (fault : SyntaxFault) : Spells (Parse.fail fault) Q := fun r => .refl r

theorem imp (h : Spells rule Q) (hq : ∀ a ks rest, Q a ks rest → Q' a ks rest) : Spells rule Q' := by
  intro r
  have h := h r
  cases hr : rule r with
  | exhausted => trivial
  | failed e r' => rw [hr] at h; exact h
  | done a r' =>
    rw [hr] at h
    refine ⟨h.1, fun he hp => ?_⟩
    obtain ⟨ks, hks, hq'⟩ := h.2 he hp
    exact ⟨ks, hks, hq _ _ _ hq'⟩

theorem bind (h : Spells rule Q)
    (hn : ∀ a ks, Spells (next a) fun b ks' rest => Q a ks (ks' ++ rest) → T b (ks ++ ks') rest) :
    Spells (rule >>= next) T := by
  intro r
  rw [Run.bind_apply]
  cases hr : rule r with
  | exhausted => trivial
  | failed e r₁ =>
    have h := h r
    rw [hr] at h
    exact h
  | done a r₁ =>
    obtain ⟨hl, h⟩ := h.of_done hr
    dsimp only
    cases hr' : next a r₁ with
    | exhausted => trivial
    | failed e r₂ =>
      have hn := hn a [] r₁
      rw [hr'] at hn
      exact hl.trans hn
    | done b r₂ =>
      have hl' := ((hn a []).of_done hr').1
      refine ⟨hl.trans hl', fun he hp => ?_⟩
      -- no error was reported on the way
      have he₁ : r₁.errors = r.errors := (hl.errors.eq_of_length_le (by rw [← he]; exact hl'.errors.length_le)).symm
      obtain ⟨ks, hks, hq⟩ := h he₁ hp
      have hp₁ : ∀ k ∈ r₁.kinds, k.isShorthand = false := fun k hk => hp k (by rw [hks]; exact List.mem_append_right _ hk)
      obtain ⟨ks', hks', ht⟩ := ((hn a ks).of_done hr').2 (he.trans he₁.symm) hp₁
      exact ⟨ks ++ ks', by rw [hks, hks', List.append_assoc], ht (hks' ▸ hq)⟩

theorem ite {c : Prop} [Decidable c] {x y : Parse α} (hx : c → Spells x Q) (hy : ¬ c → Spells y Q) :
    Spells (if c then x else y) Q := by
  by_cases h : c
  · rw [if_pos h]; exact hx h
  · rw [if_neg h]; exact hy h

/-- A rule of which only this matters, that it goes on. -/
theorem of_meets {dry : Reader → Prop} {P : Reader → α → Reader → Prop}
    (h : ∀ r, Meets (fun _ => True) rule r (dry r) (P r)) : Spells rule fun _ _ _ => True := by
  intro r
  have h := h r fun _ _ _ _ => trivial
  cases hr : rule r with
  | exhausted => trivial
  | failed e r' => rw [hr] at h; exact h
  | done a r' =>
    rw [hr] at h
    obtain ⟨ks, hks⟩ := h.1.kinds
    exact ⟨h.1, fun _ _ => ⟨ks, hks, trivial⟩⟩

end

end Spells

namespace Parse

open Reader

section
variable {α β : Type} {rule : Parse α} {Q : α → List Kind → List Kind → Prop} {T : β → List Kind → List Kind → Prop}

/-! ## Single tokens -/

theorem spells_read (f : Reader → α) : Spells (Run.read f) fun _ ks _ => ks = [] :=
  fun r => ⟨.refl r, fun _ _ => ⟨[], rfl, rfl⟩⟩

theorem spells_line : Spells line fun _ ks _ => ks = [] := spells_read Reader.line

/-- What comes next is known, and still ahead. -/
theorem spells_peek {next : Option Kind → Parse β}
    (hn : ∀ kind, Spells (next kind) fun b ks rest => kind = (ks ++ rest).head? → T b ks rest) :
    Spells (kind? >>= next) T := by
  have hkind : Spells kind? fun kind ks rest => ks = [] ∧ kind = rest.head? :=
    fun r => ⟨.refl r, fun _ _ => ⟨[], rfl, rfl, r.head?_kinds.symm⟩⟩
  exact hkind.bind fun kind _ => (hn kind).imp fun _ _ _ ht ⟨hks, hh⟩ => hks ▸ ht hh

/-- What is known to come next is read. -/
theorem spells_skip {kind : Kind} {next : Unit → Parse β}
    (hn : Spells (next ()) fun b ks rest => kind.isShorthand = false → T b (kind :: ks) rest) :
    Spells (skip >>= next) fun b ks rest => some kind = (ks ++ rest).head? → T b ks rest := by
  have hskip : Spells skip fun _ ks rest => ∀ k, some k = (ks ++ rest).head? → ks = [k] ∧ k.isShorthand = false := by
    intro r
    refine ⟨.skip r, fun _ hp => ?_⟩
    obtain ⟨ks, hks⟩ := (Later.skip r).kinds
    refine ⟨ks, hks, fun k hk => ?_⟩
    rw [← hks, r.head?_kinds] at hk
    have hcons := kinds_of_kind hk.symm
    rw [hcons] at hks hp
    exact ⟨(List.append_cancel_right (show [k] ++ r.skip.kinds = ks ++ r.skip.kinds from hks)).symm, hp k (.head _)⟩
  refine hskip.bind fun _ _ => hn.imp fun _ _ _ ht hk hh => ?_
  rw [List.append_assoc] at hh
  obtain ⟨rfl, hp⟩ := hk kind hh
  exact ht hp

theorem spells_accept (kind : Kind) : Spells (accept kind) fun found ks rest =>
    if found then ks = [kind] ∧ kind.isShorthand = false else ks = [] ∧ rest.head? ≠ some kind := by
  intro r
  unfold accept
  by_cases h : r.kind? = some kind
  · rw [if_pos h]
    refine ⟨.skip r, fun _ hp => ⟨[kind], kinds_of_kind h, rfl, hp kind ?_⟩⟩
    rw [kinds_of_kind h]
    exact .head _
  · rw [if_neg h]
    exact ⟨.refl r, fun _ _ => ⟨[], rfl, rfl, by rw [r.head?_kinds]; exact h⟩⟩

/-- Two ways to go on, with the token behind or still ahead. -/
theorem spells_choice {yes no : Parse β} (kind : Kind)
    (hy : Spells yes fun b ks rest => kind.isShorthand = false → T b (kind :: ks) rest)
    (hn : Spells no fun b ks rest => (ks ++ rest).head? ≠ some kind → T b ks rest) :
    Spells (do if ← accept kind then yes else no) T := by
  refine (spells_accept kind).bind fun found ks => ?_
  cases found with
  | true => exact hy.imp fun _ _ _ ht ⟨hks, hp⟩ => hks ▸ ht hp
  | false => exact hn.imp fun _ _ _ ht ⟨hks, hh⟩ => hks ▸ ht hh

theorem spells_mark {next : Nat → Parse β} (m : Mark) (place : Place)
    (hn : ∀ line, Spells (next line) fun b ks rest => T b (.mark m :: ks) rest) :
    Spells (expectMark m place >>= next) T := by
  have hmark : Spells (expectMark m place) fun _ ks _ => ks = [.mark m] := by
    intro r
    unfold expectMark
    by_cases h : r.kind? = some (.mark m)
    · rw [if_pos h]
      exact ⟨.skip r, fun _ _ => ⟨[.mark m], kinds_of_kind h, rfl⟩⟩
    · rw [if_neg h]
      exact .refl r
  exact hmark.bind fun line _ => (hn line).imp fun _ _ _ ht hks => hks ▸ ht

theorem spells_name {next : Name → Parse β} (fault : SyntaxFault)
    (hn : ∀ name, Spells (next name) fun b ks rest => T b (.identifier name.text :: ks) rest) :
    Spells (expectName fault >>= next) T := by
  have hname : Spells (expectName fault) fun name ks _ => ks = [.identifier name.text] := by
    intro r
    unfold expectName
    cases hk : r.kind? with
    | none => exact .refl r
    | some kind =>
      cases kind with
      | identifier text => exact ⟨.skip r, fun _ _ => ⟨[.identifier text], kinds_of_kind hk, rfl⟩⟩
      | _ => exact .refl r
  exact hname.bind fun name _ => (hn name).imp fun _ _ _ ht hks => hks ▸ ht

/-- A rule that reads no token. -/
theorem spells_silent {next : α → Parse β} (h : Spells rule fun _ ks _ => ks = []) (hn : ∀ a, Spells (next a) T) :
    Spells (rule >>= next) T :=
  h.bind fun a _ => (hn a).imp fun _ _ _ ht hks => hks ▸ ht

theorem spells_freshId : Spells freshId fun _ ks _ => ks = [] :=
  fun _ => ⟨⟨List.suffix_rfl, rfl, Nat.le_succ _, List.prefix_rfl⟩, fun _ _ => ⟨[], rfl, rfl⟩⟩

theorem spells_reread (e : Expr) : Spells (reread e) fun _ ks _ => ks = [] :=
  fun _ => ⟨⟨List.suffix_rfl, rfl, (e.fresh_spans _).le, List.prefix_rfl⟩, fun _ _ => ⟨[], rfl, rfl⟩⟩

theorem spells_atMark (m : Mark) : Spells (atMark m) fun _ ks _ => ks = [] :=
  spells_peek fun _ => .pure fun _ _ => rfl

theorem spells_before (m : Mark) : Spells (before m) fun _ ks _ => ks = [] :=
  spells_peek fun _ => .pure fun _ _ => rfl

/-! ## Reports -/

theorem spells_report (fault : SyntaxFault) (Q : Unit → List Kind → List Kind → Prop) : Spells (report fault) Q :=
  fun r => ⟨.report r _, fun he => absurd he (by simp [Reader.report])⟩

theorem spells_reportAt (site : Site) (fault : SyntaxFault) (Q : Unit → List Kind → List Kind → Prop) :
    Spells (reportAt site fault) Q :=
  fun r => ⟨.report r _, fun he => absurd he (by simp [Reader.report])⟩

theorem spells_checkCount (count : Nat) (fault : SyntaxFault) :
    Spells (checkCount count fault) fun _ ks _ => ks = [] ∧ count < maxArity :=
  .ite (fun _ => spells_report _ _) fun h => .pure fun _ => ⟨rfl, Nat.lt_of_not_le h⟩

theorem spells_recover (h : Spells rule Q) :
    Spells (recover rule) fun found ks rest => ∃ a, found = some a ∧ Q a ks rest := by
  intro r
  have h := h r
  unfold recover
  cases hr : rule r with
  | exhausted => trivial
  | done a r' =>
    rw [hr] at h
    refine ⟨h.1, fun he hp => ?_⟩
    obtain ⟨ks, hks, hq⟩ := h.2 he hp
    exact ⟨ks, hks, a, rfl, hq⟩
  | failed e r' =>
    rw [hr] at h
    have hlen := h.errors.length_le
    have hl : r.Later { r'.report e with tokens := synchronize r'.tokens } :=
      ⟨(synchronize_suffix _).trans ((List.tail_suffix _).trans h.tokens), h.endLine, h.ids,
        h.errors.trans (List.prefix_append ..)⟩
    refine ⟨hl, fun he => ?_⟩
    have he : r'.errors ++ [e] = r.errors := he
    rw [← he, List.length_append, List.length_singleton] at hlen
    exact absurd hlen (Nat.not_succ_le_self _)

/-! ## Optional parts -/

theorem spells_unlessAt (m : Mark) (h : Spells rule Q) : Spells (unlessAt m rule) fun found ks rest =>
    (found = none ∧ ks = []) ∨ ∃ a, found = some a ∧ Q a ks rest := by
  refine spells_silent (spells_atMark m) fun found => .ite (fun _ => ?_) fun _ => ?_
  · exact .pure fun _ => .inl ⟨rfl, rfl⟩
  · exact h.bind fun a ks => .pure fun rest hq => .inr ⟨a, rfl, by rwa [List.append_nil]⟩

theorem spells_ifAccepted (kind : Kind) (h : Spells rule Q) : Spells (ifAccepted kind rule) fun found ks rest =>
    (found = none ∧ ks = [] ∧ rest.head? ≠ some kind) ∨ ∃ a ks', found = some a ∧ ks = kind :: ks' ∧ Q a ks' rest := by
  refine spells_choice kind ?_ (.pure fun rest hne => .inl ⟨rfl, rfl, hne⟩)
  refine h.bind fun a ks => .pure fun rest hq _ => .inr ⟨a, ks, rfl, by rw [List.append_nil], hq⟩

theorem spells_endBody (closed : Bool) : Spells (endBody closed) fun _ ks _ => ks = endKinds closed := by
  cases closed with
  | true => exact spells_mark _ _ fun _ => .pure fun _ => rfl
  | false => exact .pure fun _ => rfl

/-! ## Operators -/

theorem spells_acceptAssignment : Spells acceptAssignment fun found ks _ => (found = none ∧ ks = []) ∨
    ∃ form site m, found = some (form, site) ∧ ks = [.mark m] ∧ Assignment.ofMark? m = some form ∧ m.isShorthand = false := by
  refine spells_silent (spells_read _) fun site => spells_peek fun kind => ?_
  split
  · rename_i m
    split
    · rename_i form hform
      exact spells_skip (.pure fun _ hp => .inr ⟨form, site, m, rfl, rfl, hform, hp⟩)
    · exact .pure fun _ _ => .inl ⟨rfl, rfl⟩
  · exact .pure fun _ _ => .inl ⟨rfl, rfl⟩

theorem spells_acceptLeading : Spells acceptLeading fun found ks _ => (found = none ∧ ks = []) ∨
    ∃ form site m, found = some (form, site) ∧ ks = [.mark m] ∧ Leading.ofMark? m = some form ∧ m.isShorthand = false := by
  refine spells_silent (spells_read _) fun site => spells_peek fun kind => ?_
  split
  · rename_i m
    split
    · rename_i form hform
      exact spells_skip (.pure fun _ hp => .inr ⟨form, site, m, rfl, rfl, hform, hp⟩)
    · exact .pure fun _ _ => .inl ⟨rfl, rfl⟩
  · exact .pure fun _ _ => .inl ⟨rfl, rfl⟩

theorem spells_acceptConnective (level : Nat) : Spells (acceptConnective level) fun found ks _ => (found = none ∧ ks = []) ∨
    ∃ c line kind, found = some (c, line) ∧ ks = [kind] ∧ Connective.at? level kind = some c := by
  refine spells_silent spells_line fun line => spells_peek fun kind? => ?_
  split
  · rename_i c hc
    obtain ⟨kind, rfl, hc⟩ := Option.bind_eq_some_iff.mp hc
    exact spells_skip (.pure fun _ _ => .inr ⟨c, line, kind, rfl, rfl, hc⟩)
  · exact .pure fun _ _ => .inl ⟨rfl, rfl⟩

end

end Parse

namespace Parse

section
variable {β : Type} {T : β → List Kind → List Kind → Prop}

theorem spells_assignTo (target value : Expr) (kt kv : List Kind) (site : Site) (fault : SyntaxFault) :
    Spells (assignTo target value site fault) fun e ks _ => ks = [] ∧
      (target.Spelled True 1 kt → value.Spelled True 0 kv → e.Spelled True 0 (kt ++ .mark .equal :: kv)) := by
  cases target with
  | var id name =>
    refine spells_silent spells_freshId fun id' => .pure fun _ => ⟨rfl, fun ht hv => ?_⟩
    obtain rfl := ht.written
    exact ⟨⟨kv, rfl, hv.written⟩, hv.fits, Nat.zero_le _⟩
  | get object name =>
    refine .pure fun _ => ⟨rfl, fun ht hv => ?_⟩
    obtain ⟨ko, rfl, hko⟩ := ht.written
    exact ⟨⟨ko, kv, by simp, hko, hv.written⟩, ⟨ht.fits.1, ht.fits.2, hv.fits⟩, Nat.zero_le _⟩
  | _ => exact (spells_reportAt site fault fun _ _ _ => False).bind fun _ _ => .pure fun _ h => h.elim

theorem spells_updateBy (op : Mark) (target operand : Expr) (site : Site) (fault : SyntaxFault) :
    Spells (updateBy op target operand site fault) fun _ _ _ => True :=
  spells_silent (spells_reread target) fun _ => (spells_assignTo target _ [] [] site fault).imp fun _ _ _ _ => trivial

theorem spells_atom : Spells atom? fun found ks _ => (found = none ∧ ks = []) ∨
    ∃ e, found = some e ∧ e.Spelled True Rank.primary ks := by
  have literal : ∀ {kind : Kind} {value : Literal}, value.Written [kind] →
      Spells (do skip; return some (.literal value)) fun found ks rest => some kind = (ks ++ rest).head? →
        (found = none ∧ ks = []) ∨ ∃ e, found = some e ∧ Expr.Spelled True Rank.primary e ks := fun hw =>
    spells_skip (.pure fun _ _ => .inr ⟨_, rfl, hw, trivial, Nat.le_refl _⟩)
  refine spells_silent spells_line fun line => spells_peek fun kind => ?_
  split
  · exact literal rfl
  · exact literal rfl
  · exact literal rfl
  · exact literal ⟨_, rfl⟩
  · exact literal rfl
  · refine spells_skip (spells_silent spells_freshId fun id => .pure fun _ _ => .inr ⟨_, rfl, rfl, trivial, Nat.le_refl _⟩)
  · refine spells_skip (spells_mark _ _ fun _ => spells_name _ fun method => spells_silent spells_freshId fun id => ?_)
    exact .pure fun _ _ => .inr ⟨_, rfl, rfl, trivial, Nat.le_refl _⟩
  · refine spells_skip (spells_silent spells_freshId fun id => .pure fun _ _ => .inr ⟨_, rfl, rfl, trivial, Nat.le_refl _⟩)
  · exact .pure fun _ _ => .inl ⟨rfl, rfl⟩

/-! ## Lists of names -/

theorem spells_parameterList : ∀ fuel count : Nat, Spells (parameterList fuel count) fun params ks _ =>
    params ≠ [] ∧ ks = nameKinds params ∧ count + params.length ≤ maxArity
  | 0, _ => .exhausted
  | fuel + 1, count => by
    rw [parameterList]
    refine (spells_checkCount count _).bind fun _ ks => spells_name _ fun param => spells_choice _ ?_ ?_
    · refine (spells_parameterList fuel (count + 1)).bind fun params ks' => .pure ?_
      rintro rest ⟨hne, rfl, hlen⟩ - ⟨rfl, -⟩
      refine ⟨List.cons_ne_nil _ _, ?_, by rw [List.length_cons]; omega⟩
      cases params with
      | nil => exact absurd rfl hne
      | cons p ps => simp [nameKinds]
    · exact .pure fun _ _ h => ⟨List.cons_ne_nil _ _, by rw [h.1]; rfl, h.2⟩

/-- The parameter list without its opening parenthesis. -/
theorem spells_parameters (fuel : Nat) : Spells (parameters fuel) fun params ks _ =>
    .mark .leftParen :: ks = parameterKinds false params ∧ params.length ≤ maxArity := by
  refine (spells_unlessAt _ (spells_parameterList fuel 0)).bind fun found ks => spells_mark _ _ fun _ => .pure ?_
  rintro rest (⟨rfl, rfl⟩ | ⟨params, rfl, -, rfl, hlen⟩)
  · exact ⟨rfl, Nat.zero_le _⟩
  · exact ⟨rfl, by simpa using hlen⟩

theorem spells_superclass : Spells superclass? fun ref ks _ => ks = superclassKinds ref := by
  refine spells_choice _ (spells_name _ fun name => spells_silent spells_freshId fun id => ?_) ?_
  · exact .pure fun _ _ => rfl
  · exact .pure fun _ _ => rfl

/-- Where a function is declared, `fun` comes first. -/
theorem spells_functionDeclaration {next : Unit → Parse β} {no : Parse β}
    (hn : Spells (next ()) fun b ks rest => T b (.keyword .fun :: ks) rest) (hno : Spells no T) :
    Spells (do if ← atFunctionDeclaration then skip >>= next else no) T := by
  have hat : Spells atFunctionDeclaration fun found ks rest =>
      ks = [] ∧ (found = true → some (.keyword .fun) = rest.head?) := by
    rintro ⟨tokens, endLine, nextId, errors⟩
    refine ⟨.refl _, fun _ _ => ⟨[], rfl, rfl, ?_⟩⟩
    dsimp only
    split
    · exact fun _ => rfl
    · nofun
  refine hat.bind fun found ks => ?_
  cases found with
  | true =>
    have hskip : Spells (skip >>= next) fun b ks rest => some (.keyword .fun) = (ks ++ rest).head? → T b ks rest :=
      spells_skip (hn.imp fun _ _ _ ht _ => ht)
    exact hskip.imp fun _ _ _ ht ⟨hks, hh⟩ => hks ▸ ht (hh rfl)
  | false => exact hno.imp fun _ _ _ ht ⟨hks, _⟩ => hks ▸ ht

end

end Parse

end Lox
