import Lox.Syntax.Grammar
import Lox.Proofs.Syntax.Fresh

/-!
# What reading does to a reader

A rule leaves a later reader behind: some tokens are read, some identities given out, and some
errors reported. What a rule promises beyond that is stated by `Meets`, which goes through a
sequence of rules one after the other.
-/

namespace Lox

namespace Reader

/-- Reading leads from the first reader to the second. -/
structure Later (r r' : Reader) : Prop where
  tokens : r'.tokens <:+ r.tokens
  endLine : r'.endLine = r.endLine
  ids : r.nextId ≤ r'.nextId
  errors : r.errors <+: r'.errors

namespace Later

variable {r r₁ r₂ : Reader}

theorem refl (r : Reader) : Later r r := ⟨List.suffix_rfl, rfl, Nat.le_refl _, List.prefix_rfl⟩

theorem trans (h : Later r r₁) (h' : Later r₁ r₂) : Later r r₂ :=
  ⟨h'.tokens.trans h.tokens, h'.endLine.trans h.endLine, Nat.le_trans h.ids h'.ids, h.errors.trans h'.errors⟩

theorem length_le (h : Later r r₁) : r₁.tokens.length ≤ r.tokens.length := h.tokens.length_le

theorem skip (r : Reader) : Later r r.skip :=
  ⟨List.drop_suffix .., rfl, Nat.le_refl _, List.prefix_rfl⟩

theorem report (r : Reader) (e : Error) : Later r (r.report e) :=
  ⟨List.suffix_rfl, rfl, Nat.le_refl _, List.prefix_append ..⟩

end Later

/-- The names among the tokens have the property. -/
def Names (P : Name → Prop) (r : Reader) : Prop :=
  ∀ t ∈ r.tokens, ∀ text, t.kind = .identifier text → P { text, line := t.line }

theorem Names.later {P : Name → Prop} {r r' : Reader} (h : r.Names P) (hl : Later r r') : r'.Names P :=
  fun t ht => h t (hl.tokens.subset ht)

theorem Names.head {P : Name → Prop} {r : Reader} (h : r.Names P) {text : String}
    (hk : r.kind? = some (.identifier text)) : P { text, line := r.line } := by
  cases ht : r.tokens with
  | nil => simp [kind?, ht] at hk
  | cons t ts =>
    have hk : t.kind = .identifier text := by simpa [kind?, ht] using hk
    simpa [line, ht] using h t (by simp [ht]) text hk

/-- Fuel for a rule that is at most `rank` rules deep when it reads its first token. -/
def need (r : Reader) (rank : Nat) : Nat := rulesPerToken * r.tokens.length + rank

/-- After a token is read there is fuel for any rule. -/
theorem need_of_read {r r' : Reader} {fuel rank rank' : Nat} (h : r'.tokens.length < r.tokens.length)
    (hr : rank' ≤ rulesPerToken) (hf : fuel < r'.need rank') (h₁ : 1 ≤ rank) : fuel + 1 < r.need rank := by
  unfold need rulesPerToken at *; omega

/-- Without reading a token there is fuel for the rules of lower rank. -/
theorem need_of_lower {r r' : Reader} {fuel rank rank' : Nat} (h : r'.tokens.length ≤ r.tokens.length)
    (hr : rank' < rank) (hf : fuel < r'.need rank') : fuel + 1 < r.need rank := by
  unfold need rulesPerToken at *; omega

theorem skip_length {r : Reader} {kind : Token.Kind} (h : r.kind? = some kind) :
    r.skip.tokens.length < r.tokens.length := by
  cases ht : r.tokens with
  | nil => simp [kind?, ht] at h
  | cons t ts => simp [skip, ht]

end Reader

open Reader

section
variable {P : Name → Prop} {α β : Type} {r : Reader} {dry dry' : Prop} {Q Q' : α → Reader → Prop}

/-- Where the names among the tokens have the property `P`, the rule leaves a later reader, with `Q`
if it gives a result. Its fuel runs out only where it is `dry`. -/
def Meets (P : Name → Prop) (rule : Parse α) (r : Reader) (dry : Prop) (Q : α → Reader → Prop) : Prop :=
  r.Names P →
    match rule r with
    | .done a r' => r.Later r' ∧ Q a r'
    | .failed _ r' => r.Later r'
    | .exhausted => dry

namespace Meets

theorem intro {rule : Parse α} (h : r.Names P → Meets P rule r dry Q) : Meets P rule r dry Q := fun hp => h hp hp

theorem of_done {rule : Parse α} {a : α} {r' : Reader} (hr : rule r = .done a r') (hl : r.Later r') (h : Q a r') :
    Meets P rule r dry Q := by
  intro _; rw [hr]; exact ⟨hl, h⟩

theorem of_failed {rule : Parse α} {e : Error} {r' : Reader} (hr : rule r = .failed e r') (hl : r.Later r') :
    Meets P rule r dry Q := by
  intro _; rw [hr]; exact hl

theorem exhausted (h : dry) : Meets P (Run.exhausted : Parse α) r dry Q := fun _ => h

theorem pure {a : α} (h : Q a r) : Meets P (Pure.pure a : Parse α) r dry Q := .of_done rfl (.refl r) h

theorem bind {rule : Parse α} {next : α → Parse β} {Q' : β → Reader → Prop} (h : Meets P rule r dry Q)
    (hd : dry → dry')
    (hn : ∀ a r', r.Later r' → Q a r' → Meets P (next a) r' dry' Q') : Meets P (rule >>= next) r dry' Q' := by
  intro hp
  have h := h hp
  rw [Run.bind_apply]
  cases hr : rule r with
  | failed e r' => rw [hr] at h; exact h
  | exhausted => rw [hr] at h; exact hd h
  | done a r' =>
    rw [hr] at h
    have hn := hn a r' h.1 h.2 (hp.later h.1)
    cases hr' : next a r' with
    | done b r'' => simp only [hr'] at hn ⊢; exact ⟨h.1.trans hn.1, hn.2⟩
    | failed e r'' => simp only [hr'] at hn ⊢; exact h.1.trans hn
    | exhausted => simp only [hr'] at hn ⊢; exact hn

/-- A first rule that needs no fuel. -/
theorem first {rule : Parse α} {next : α → Parse β} {Q' : β → Reader → Prop} (h : Meets P rule r False Q)
    (hn : ∀ a r', r.Later r' → Q a r' → Meets P (next a) r' dry Q') : Meets P (rule >>= next) r dry Q' :=
  h.bind False.elim hn

theorem imp {rule : Parse α} (h : Meets P rule r dry Q) (hd : dry → dry')
    (hq : ∀ a r', r.Later r' → Q a r' → Q' a r') : Meets P rule r dry' Q' := by
  intro hp
  have h := h hp
  cases hr : rule r with
  | done a r' => rw [hr] at h; exact ⟨h.1, hq a r' h.1 h.2⟩
  | failed e r' => rw [hr] at h; exact h
  | exhausted => rw [hr] at h; exact hd h

theorem ite {c : Prop} [Decidable c] {x y : Parse α} (hx : c → Meets P x r dry Q) (hy : ¬ c → Meets P y r dry Q) :
    Meets P (if c then x else y) r dry Q := by
  by_cases h : c
  · rw [if_pos h]; exact hx h
  · rw [if_neg h]; exact hy h

end Meets

end

end Lox
