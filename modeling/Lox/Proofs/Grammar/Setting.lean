import Lox.Proofs.Grammar.Statements
import Lox.Proofs.Syntax.Recoded

/-!
# Reading a text inside a larger one

What is read from a text without errors is read from it as well where it stands further down in a
larger text: on other lines, and with other tokens behind it. At the end of its tokens a rule must
not have looked further, or what comes next must not matter to it.
-/

namespace Lox

/-- Where a text stands in a larger one. What follows it does not go on with its last statement. -/
structure Setting where
  lineOf : Nat → Nat
  more : List Token
  endLine : Nat
  fresh : more.head?.map Token.kind ≠ some (.keyword .else)

namespace Setting

variable (s : Setting)

def reader (r : Reader) : Reader :=
  { r with tokens := r.tokens.map (Token.relined s.lineOf) ++ s.more, endLine := s.endLine }

variable {s} {r : Reader}

theorem kind?_reader (h : r.tokens ≠ []) : (s.reader r).kind? = r.kind? := by
  cases ht : r.tokens with
  | nil => exact absurd ht h
  | cons t ts => simp [reader, Reader.kind?, ht, Token.relined]

theorem line_reader (h : r.tokens ≠ []) : (s.reader r).line = s.lineOf r.line := by
  cases ht : r.tokens with
  | nil => exact absurd ht h
  | cons t ts => simp [reader, Reader.line, ht, Token.relined]

theorem site_reader (h : r.tokens ≠ []) : (s.reader r).site = r.site.relined s.lineOf := by
  cases ht : r.tokens with
  | nil => exact absurd ht h
  | cons t ts => simp [reader, Reader.site, ht, Token.relined, Token.lexeme, Site.relined]

theorem skip_reader (h : r.tokens ≠ []) : (s.reader r).skip = s.reader r.skip := by
  cases ht : r.tokens with
  | nil => exact absurd ht h
  | cons t ts => simp [reader, Reader.skip, ht]

end Setting

/-- There are tokens left. -/
def Reader.Ahead (r : Reader) : Prop := r.tokens ≠ []

theorem Reader.ahead_of_kind {r : Reader} {kind : Token.Kind} (h : r.kind? = some kind) : r.Ahead := by
  intro ht
  simp [kind?, ht] at h

theorem Reader.Later.ahead {r r' : Reader} (h : r.Later r') (ha : r'.Ahead) : r.Ahead := by
  intro ht
  have hs := h.tokens
  rw [ht, List.suffix_nil] at hs
  exact ha hs

/-- The rule reads on only where there are tokens. -/
def Hungry {α : Type} (rule : Parse α) : Prop := ∀ r a r', rule r = .done a r' → r.Ahead

theorem Hungry.bind {α β : Type} {rule : Parse α} (h : Hungry rule) (next : α → Parse β) : Hungry (rule >>= next) := by
  intro r b r' hb
  obtain ⟨a, r₁, hr, -⟩ := Run.of_bind_done hb
  exact h r a r₁ hr

theorem Hungry.of_meets {α : Type} {rule : Parse α} {dry : Reader → Prop} {Q : Reader → α → Reader → Prop}
    (h : ∀ r, Meets (fun _ => True) rule r (dry r) (Q r)) (hq : ∀ r a r', Q r a r' → r'.tokens.length < r.tokens.length) :
    Hungry rule := by
  intro r a r' hr ht
  have hm := h r (fun _ _ _ _ => trivial)
  rw [hr] at hm
  have hlt := hq r a r' hm.2
  simp [ht] at hlt

theorem Hungry.after {α β : Type} {rule : Parse α} {next : α → Parse β}
    (hl : ∀ r a r', rule r = .done a r' → r.Later r') (h : ∀ a, Hungry (next a)) : Hungry (rule >>= next) := by
  intro r b r' hb
  obtain ⟨a, r₁, hr, hn⟩ := Run.of_bind_done hb
  exact (hl r a r₁ hr).ahead (h a r₁ b r' hn)

section
variable {α β : Type} {s : Setting} {f : α → α} {g : β → β} {C : Reader → Prop} {r : Reader}

/-- Where the rule gives a result and reports nothing, `rule'` gives the same in the setting, unless
its fuel runs out. It may be required that tokens are left. -/
def Carries (s : Setting) (f : α → α) (C : Reader → Prop) (rule rule' : Parse α) (r : Reader) : Prop :=
  ∀ a r', rule r = .done a r' → r.Later r' ∧ (r'.errors = r.errors → C r' →
    rule' (s.reader r) = .exhausted ∨ rule' (s.reader r) = .done (f a) (s.reader r'))

namespace Carries

/-- The result does not depend on what follows. -/
abbrev Closed : Reader → Prop := fun _ => True

theorem bind {C' : Reader → Prop} {rule rule' : Parse α} {next next' : α → Parse β} (h : Carries s f C' rule rule' r)
    (hn : ∀ a r₁, rule r = .done a r₁ → r.Later r₁ → Carries s g C (next a) (next' (f a)) r₁)
    (hc : ∀ a r₁ b r₂, next a r₁ = .done b r₂ → r₁.Later r₂ → C r₂ → C' r₁) :
    Carries s g C (rule >>= next) (rule' >>= next') r := by
  intro b r₂ hb
  obtain ⟨a, r₁, hr, hb⟩ := Run.of_bind_done hb
  obtain ⟨hl, h⟩ := h a r₁ hr
  obtain ⟨hl', hn⟩ := hn a r₁ hr hl b r₂ hb
  refine ⟨hl.trans hl', fun he hC => ?_⟩
  -- no error was reported on the way
  have he₁ : r₁.errors = r.errors := (hl.errors.eq_of_length_le (by rw [← he]; exact hl'.errors.length_le)).symm
  rw [Run.bind_apply]
  rcases h he₁ (hc a r₁ b r₂ hb hl' hC) with h | h
  · rw [h]; exact .inl rfl
  · rw [h]; exact hn (he.trans he₁.symm) hC

/-- The first rule does not look further. -/
theorem closed {rule rule' : Parse α} {next next' : α → Parse β} (h : Carries s f Closed rule rule' r)
    (hn : ∀ a r₁, rule r = .done a r₁ → r.Later r₁ → Carries s g C (next a) (next' (f a)) r₁) :
    Carries s g C (rule >>= next) (rule' >>= next') r :=
  h.bind hn fun _ _ _ _ _ _ _ => trivial

/-- The first rule may look at the next token, and there is one in the end. -/
theorem ahead {rule rule' : Parse α} {next next' : α → Parse β} (h : Carries s f Reader.Ahead rule rule' r)
    (hn : ∀ a r₁, rule r = .done a r₁ → r.Later r₁ → Carries s g Reader.Ahead (next a) (next' (f a)) r₁) :
    Carries s g Reader.Ahead (rule >>= next) (rule' >>= next') r :=
  h.bind hn fun _ _ _ _ _ hl hC => hl.ahead hC

/-- The first rule may look at the next token, which the next rule reads. -/
theorem upTo {rule rule' : Parse α} {next next' : α → Parse β} (h : Carries s f Reader.Ahead rule rule' r)
    (hh : ∀ a, Hungry (next a))
    (hn : ∀ a r₁, rule r = .done a r₁ → r.Later r₁ → Carries s g C (next a) (next' (f a)) r₁) :
    Carries s g C (rule >>= next) (rule' >>= next') r :=
  h.bind hn fun a r₁ b r₂ hb _ _ => hh a r₁ b r₂ hb

/-- The rule reads a token in any case. -/
theorem hungry {rule rule' : Parse α} (hh : Hungry rule) (h : r.Ahead → Carries s f C rule rule' r) :
    Carries s f C rule rule' r := fun a r' hr => h (hh r a r' hr) a r' hr

theorem weaken {rule rule' : Parse α} (h : Carries s f Closed rule rule' r) : Carries s f C rule rule' r :=
  fun a r' hr => ⟨(h a r' hr).1, fun he _ => (h a r' hr).2 he trivial⟩

theorem pure (a : α) : Carries s f C (Pure.pure a : Parse α) (Pure.pure (f a)) r := by
  intro b r' hr
  cases hr
  exact ⟨.refl r, fun _ _ => .inr rfl⟩

theorem exhausted (rule' : Parse α) : Carries s f C (Run.exhausted : Parse α) rule' r := fun _ _ hr => by cases hr

theorem fail (fault : SyntaxFault) (rule' : Parse α) : Carries s f C (Parse.fail fault) rule' r := fun _ _ hr => by cases hr

theorem ite {c c' : Prop} [Decidable c] [Decidable c'] {x y x' y' : Parse α} (hc : c ↔ c') (hx : c → Carries s f C x x' r)
    (hy : ¬ c → Carries s f C y y' r) : Carries s f C (if c then x else y) (if c' then x' else y') r := by
  by_cases h : c
  · rw [if_pos h, if_pos (hc.mp h)]; exact hx h
  · rw [if_neg h, if_neg (mt hc.mpr h)]; exact hy h

section
variable {rule rule' : Parse α} {dry : Prop} {Q : α → Reader → Prop} (hm : Meets (fun _ => True) rule r dry Q)
include hm

theorem later_of_meets {a : α} {r' : Reader} (hr : rule r = .done a r') : r.Later r' := by
  have hm := hm (fun _ _ _ _ => trivial)
  rw [hr] at hm
  exact hm.1

theorem of_exhausted : Carries s f C rule Run.exhausted r := fun _ _ hr => ⟨later_of_meets hm hr, fun _ _ => .inl rfl⟩

theorem of_ahead (h : r.Ahead → Carries s f Closed rule rule' r) : Carries s f Reader.Ahead rule rule' r := by
  intro a r' hr
  have hl := later_of_meets hm hr
  exact ⟨hl, fun he hC => (h (hl.ahead hC) a r' hr).2 he trivial⟩

end

end Carries

end

end Lox
