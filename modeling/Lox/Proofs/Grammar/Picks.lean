import Lox.Proofs.Grammar.Unfolded
import Lox.Proofs.Grammar.Spelled

/-!
# What a rule picks

Over a text in which some tokens are chosen: without an error, what a rule gives is a passage for the tokens that it has read, and no
token that comes next goes on with it.
-/

namespace Lox

open Token (Kind)

/-- The kind of the token that comes next. -/
def Choice.next? (cs : List Choice) : Option Kind := cs.head?.map Choice.kind

/-- If there is a result and nothing is reported, the result, what has been read and what is left are as `Q` says. -/
def Picked {α : Type} (Q : α → List Choice → List Choice → Prop) (r : Reader) (all : List Choice) : Outcome Reader Error α → Prop
  | .done a r' => r.Later r' ∧ (r'.errors = r.errors →
      ∃ cs rest, all = cs ++ rest ∧ rest.map Choice.token = r'.tokens ∧ Q a cs rest)
  | .failed _ r' => r.Later r'
  | .exhausted => True

def Picks {α : Type} (rule : Parse α) (Q : α → List Choice → List Choice → Prop) : Prop :=
  ∀ r all, all.map Choice.token = r.tokens → Picked Q r all (rule r)

/-- The first choice of a reader that is not at the end. -/
theorem Choice.first_of_kind {r : Reader} {all : List Choice} {kind : Kind} (hall : all.map Choice.token = r.tokens)
    (hk : r.kind? = some kind) : ∃ c rest, all = c :: rest ∧ c.kind = kind ∧ r.line = c.line ∧
      r.site = .lexeme c.token.lexeme c.line ∧ rest.map Choice.token = r.skip.tokens := by
  cases all with
  | nil =>
    rw [Reader.kind?, ← hall] at hk
    cases hk
  | cons c rest =>
    have ht : r.tokens = c.token :: rest.map Choice.token := hall.symm
    refine ⟨c, rest, rfl, ?_, ?_, ?_, ?_⟩
    · rw [Reader.kind?, ht] at hk
      exact Option.some.inj hk
    · rw [Reader.line, ht]
      rfl
    · rw [Reader.site, ht]
      rfl
    · rw [Reader.skip, ht]
      rfl

theorem Choice.next?_eq {r : Reader} {all : List Choice} (hall : all.map Choice.token = r.tokens) :
    Choice.next? all = r.kind? := by
  rw [Choice.next?, Reader.kind?, ← hall]
  cases all <;> rfl

namespace Picks

section
variable {α β : Type} {rule : Parse α} {next : α → Parse β} {Q Q' : α → List Choice → List Choice → Prop}
  {T : β → List Choice → List Choice → Prop}

theorem pure {a : α} (h : ∀ rest, Q a [] rest) : Picks (Pure.pure a) Q :=
  fun r all hall => ⟨.refl r, fun _ => ⟨[], all, rfl, hall, h _⟩⟩

theorem exhausted : Picks Run.exhausted Q := fun _ _ _ => trivial

theorem fail (fault : SyntaxFault) : Picks (Parse.fail fault) Q := fun r _ _ => .refl r

theorem imp (h : Picks rule Q) (hq : ∀ a cs rest, Q a cs rest → Q' a cs rest) : Picks rule Q' := by
  intro r all hall
  have h := h r all hall
  cases hr : rule r with
  | exhausted => trivial
  | failed e r' => rw [hr] at h; exact h
  | done a r' =>
    rw [hr] at h
    refine ⟨h.1, fun he => ?_⟩
    obtain ⟨cs, rest, hcs, hrest, hq'⟩ := h.2 he
    exact ⟨cs, rest, hcs, hrest, hq _ _ _ hq'⟩

theorem bind (h : Picks rule Q)
    (hn : ∀ a cs, Picks (next a) fun b cs' rest => Q a cs (cs' ++ rest) → T b (cs ++ cs') rest) :
    Picks (rule >>= next) T := by
  intro r all hall
  have h := h r all hall
  rw [Run.bind_apply]
  cases hr : rule r with
  | exhausted => trivial
  | failed e r₁ => rw [hr] at h; exact h
  | done a r₁ =>
    rw [hr] at h
    obtain ⟨hl, h⟩ := h
    -- what has been read is known only if nothing has been reported
    by_cases he₁ : r₁.errors = r.errors
    · obtain ⟨cs, rest, rfl, hrest, hq⟩ := h he₁
      have hn := hn a cs r₁ rest hrest
      dsimp only
      cases hr' : next a r₁ with
      | exhausted => trivial
      | failed e r₂ => rw [hr'] at hn; exact hl.trans hn
      | done b r₂ =>
        rw [hr'] at hn
        refine ⟨hl.trans hn.1, fun he => ?_⟩
        obtain ⟨cs', rest', rfl, hrest', ht⟩ := hn.2 (he.trans he₁.symm)
        exact ⟨cs ++ cs', rest', (List.append_assoc ..).symm, hrest', ht hq⟩
    · obtain ⟨read, hread⟩ := hl.tokens
      have hn := hn a [] r₁ (all.drop read.length) (by rw [List.map_drop, hall, ← hread, List.drop_left])
      dsimp only
      cases hr' : next a r₁ with
      | exhausted => trivial
      | failed e r₂ => rw [hr'] at hn; exact hl.trans hn
      | done b r₂ =>
        rw [hr'] at hn
        refine ⟨hl.trans hn.1, fun he => absurd ?_ he₁⟩
        exact (hl.errors.eq_of_length_le (by rw [← he]; exact hn.1.errors.length_le)).symm

theorem ite {c : Prop} [Decidable c] {x y : Parse α} (hx : c → Picks x Q) (hy : ¬ c → Picks y Q) :
    Picks (if c then x else y) Q := by
  by_cases h : c
  · rw [if_pos h]; exact hx h
  · rw [if_neg h]; exact hy h

/-- The rule goes on behind a token that has been read. -/
theorem behind {c : Choice} {r : Reader} {rest : List Choice} (h : Picks rule fun a cs rest => Q a (c :: cs) rest)
    (hrest : rest.map Choice.token = r.skip.tokens) : Picked Q r (c :: rest) (rule r.skip) := by
  have h := h r.skip rest hrest
  cases hr : rule r.skip with
  | exhausted => trivial
  | failed e r' => rw [hr] at h; exact (Reader.Later.skip r).trans h
  | done a r' =>
    rw [hr] at h
    refine ⟨(Reader.Later.skip r).trans h.1, fun he => ?_⟩
    obtain ⟨cs, rest', rfl, hrest', hq⟩ := h.2 he
    exact ⟨c :: cs, rest', rfl, hrest', hq⟩

end

end Picks

namespace Parse

open Reader

section
variable {α β : Type} {rule : Parse α} {Q : α → List Choice → List Choice → Prop} {T : β → List Choice → List Choice → Prop}

/-! ## Single tokens -/

/-- The line is that of the token that comes next. -/
theorem picks_line {next : Nat → Parse β}
    (hn : ∀ line, Picks (next line) fun b cs rest => (∀ c more, cs ++ rest = c :: more → line = c.line) → T b cs rest) :
    Picks (line >>= next) T := by
  have hline : Picks line fun line cs rest => cs = [] ∧ ∀ c more, rest = c :: more → line = c.line := by
    refine fun r all hall => ⟨.refl r, fun _ => ⟨[], all, rfl, hall, rfl, ?_⟩⟩
    rintro c more rfl
    rw [Reader.line, ← hall]
    rfl
  refine hline.bind fun line _ => (hn line).imp ?_
  rintro _ _ _ ht ⟨rfl, hl⟩
  exact ht hl

/-- The place is that of the token that comes next. -/
theorem picks_site {next : Site → Parse β}
    (hn : ∀ site, Picks (next site) fun b cs rest => (∀ c more, cs ++ rest = c :: more → site.line = c.line) → T b cs rest) :
    Picks (Run.read Reader.site >>= next) T := by
  have hsite : Picks (Run.read Reader.site) fun site cs rest => cs = [] ∧ ∀ c more, rest = c :: more → site.line = c.line := by
    refine fun r all hall => ⟨.refl r, fun _ => ⟨[], all, rfl, hall, rfl, ?_⟩⟩
    rintro c more rfl
    rw [Reader.site, ← hall]
    rfl
  exact hsite.bind fun site _ => (hn site).imp fun _ _ _ ht ⟨hcs, hl⟩ => hcs ▸ ht hl

theorem picks_peek {next : Option Kind → Parse β}
    (hn : ∀ kind, Picks (next kind) fun b cs rest => kind = Choice.next? (cs ++ rest) → T b cs rest) :
    Picks (kind? >>= next) T := by
  have hkind : Picks kind? fun kind cs rest => cs = [] ∧ kind = Choice.next? rest :=
    fun r all hall => ⟨.refl r, fun _ => ⟨[], all, rfl, hall, rfl, (Choice.next?_eq hall).symm⟩⟩
  exact hkind.bind fun kind _ => (hn kind).imp fun _ _ _ ht ⟨hcs, hh⟩ => hcs ▸ ht hh

/-- What is known to come next is read. -/
theorem picks_skip {kind : Kind} {next : Unit → Parse β}
    (hn : ∀ c : Choice, c.kind = kind → Picks (next ()) fun b cs rest => T b (c :: cs) rest) :
    Picks (skip >>= next) fun b cs rest => some kind = Choice.next? (cs ++ rest) → T b cs rest := by
  intro r all hall
  by_cases hk : r.kind? = some kind
  · obtain ⟨c, rest, rfl, hc, -, -, hrest⟩ := Choice.first_of_kind hall hk
    have hn : Picks (next ()) fun b cs rest => some kind = Choice.next? (c :: cs ++ rest) → T b (c :: cs) rest :=
      (hn c hc).imp fun _ _ _ ht _ => ht
    exact hn.behind hrest
  · have hlater := hn ⟨⟨kind, 0⟩, false⟩ rfl r.skip (all.drop 1) (by rw [List.map_drop, hall]; rfl)
    rw [Run.bind_apply]
    change Picked _ r all (next () r.skip)
    cases hr : next () r.skip with
    | exhausted => trivial
    | failed e r' => rw [hr] at hlater; exact (Later.skip r).trans hlater
    | done b r' =>
      rw [hr] at hlater
      refine ⟨(Later.skip r).trans hlater.1, fun he => ?_⟩
      obtain ⟨cs, rest, hcs, hrest, -⟩ := hlater.2 he
      refine ⟨all.take 1 ++ cs, rest, by rw [List.append_assoc, ← hcs, List.take_append_drop], hrest, fun hnext => absurd ?_ hk⟩
      rw [hnext, List.append_assoc, ← hcs, List.take_append_drop, Choice.next?_eq hall]

theorem picks_skipped {kind : Kind} {b : β} (h : ∀ (c : Choice) (rest : List Choice), c.kind = kind → T b [c] rest) :
    Picks (do skip; return b) fun b cs rest => some kind = Choice.next? (cs ++ rest) → T b cs rest :=
  picks_skip fun c hc => .pure fun rest => h c rest hc

/-- What comes next is read if it is of the kind. -/
theorem picks_accepted {next : Bool → Parse β} (kind : Kind)
    (hy : ∀ c : Choice, c.kind = kind → Picks (next true) fun b cs rest => T b (c :: cs) rest)
    (hn : Picks (next false) fun b cs rest => Choice.next? (cs ++ rest) ≠ some kind → T b cs rest) :
    Picks (accept kind >>= next) T := by
  intro r all hall
  rw [Run.bind_apply, accept]
  by_cases hk : r.kind? = some kind
  · rw [if_pos hk]
    obtain ⟨c, rest, rfl, hc, -, -, hrest⟩ := Choice.first_of_kind hall hk
    exact (hy c hc).behind hrest
  · rw [if_neg hk]
    have hn := hn r all hall
    dsimp only
    cases hr : next false r with
    | exhausted => trivial
    | failed e r' => rw [hr] at hn; exact hn
    | done b r' =>
      rw [hr] at hn
      refine ⟨hn.1, fun he => ?_⟩
      obtain ⟨cs, rest, hcs, hrest, ht⟩ := hn.2 he
      exact ⟨cs, rest, hcs, hrest, ht (by rw [← hcs, Choice.next?_eq hall]; exact hk)⟩

/-- Two ways to go on, with the token behind or still ahead. -/
theorem picks_choice {yes no : Parse β} (kind : Kind)
    (hy : ∀ c : Choice, c.kind = kind → Picks yes fun b cs rest => T b (c :: cs) rest)
    (hn : Picks no fun b cs rest => Choice.next? (cs ++ rest) ≠ some kind → T b cs rest) :
    Picks (do if ← accept kind then yes else no) T :=
  picks_accepted kind hy hn

theorem picks_functionDeclaration {next : Unit → Parse β} {no : Parse β}
    (hy : ∀ c : Choice, c.kind = .keyword .fun → Picks (next ()) fun b cs rest => T b (c :: cs) rest) (hn : Picks no T) :
    Picks (do if ← atFunctionDeclaration then skip >>= next else no) T := by
  have hat : Picks atFunctionDeclaration fun found cs rest =>
      cs = [] ∧ (found = true → some (.keyword .fun) = Choice.next? rest) := by
    rintro ⟨tokens, endLine, nextId, errors⟩ all hall
    refine ⟨.refl _, fun _ => ⟨[], all, rfl, hall, rfl, ?_⟩⟩
    rw [Choice.next?_eq hall]
    dsimp only
    split
    · exact fun _ => rfl
    · nofun
  refine hat.bind fun found cs => ?_
  cases found with
  | true => exact (picks_skip hy).imp fun b cs rest ht ⟨hcs, hnext⟩ => hcs ▸ ht (hnext rfl)
  | false => exact hn.imp fun b cs rest ht ⟨hcs, _⟩ => hcs ▸ ht

theorem picks_mark {next : Nat → Parse β} (m : Mark) (place : Place)
    (hn : ∀ c : Choice, c.kind = .mark m → Picks (next c.line) fun b cs rest => T b (c :: cs) rest) :
    Picks (expectMark m place >>= next) T := by
  intro r all hall
  rw [Run.bind_apply, expectMark]
  by_cases hk : r.kind? = some (.mark m)
  · rw [if_pos hk]
    obtain ⟨c, rest, rfl, hc, hline, -, hrest⟩ := Choice.first_of_kind hall hk
    dsimp only
    rw [hline]
    exact (hn c hc).behind hrest
  · rw [if_neg hk]
    exact .refl r

theorem picks_name {next : Name → Parse β} (fault : SyntaxFault)
    (hn : ∀ (c : Choice) (x : String), c.kind = .identifier x →
      Picks (next ⟨x, c.line⟩) fun b cs rest => T b (c :: cs) rest) :
    Picks (expectName fault >>= next) T := by
  intro r all hall
  rw [Run.bind_apply]
  unfold expectName
  cases hk : r.kind? with
  | none => exact .refl r
  | some kind =>
    cases kind with
    | identifier x =>
      obtain ⟨c, rest, rfl, hc, hline, -, hrest⟩ := Choice.first_of_kind hall hk
      dsimp only
      rw [hline]
      exact (hn c x hc).behind hrest
    | _ => exact .refl r

/-- A rule that reads no token. -/
theorem picks_silent {next : α → Parse β} (h : Picks rule fun _ cs _ => cs = []) (hn : ∀ a, Picks (next a) T) :
    Picks (rule >>= next) T :=
  h.bind fun a _ => (hn a).imp fun _ _ _ ht hcs => hcs ▸ ht

theorem picks_freshId : Picks freshId fun _ cs _ => cs = [] := fun _ all hall =>
  ⟨⟨List.suffix_rfl, rfl, Nat.le_succ _, List.prefix_rfl⟩, fun _ => ⟨[], all, rfl, hall, rfl⟩⟩

theorem picks_before (m : Mark) : Picks (before m) fun _ cs _ => cs = [] :=
  picks_peek fun _ => .pure fun _ _ => rfl

theorem picks_atMark (m : Mark) : Picks (atMark m) fun _ cs _ => cs = [] :=
  picks_peek fun _ => .pure fun _ _ => rfl

/-! ## Reports -/

theorem picks_report (fault : SyntaxFault) (Q : Unit → List Choice → List Choice → Prop) : Picks (report fault) Q :=
  fun r _ _ => ⟨.report r _, fun he => absurd he (by simp [Reader.report])⟩

theorem picks_reportAt (site : Site) (fault : SyntaxFault) (Q : Unit → List Choice → List Choice → Prop) :
    Picks (reportAt site fault) Q :=
  fun r _ _ => ⟨.report r _, fun he => absurd he (by simp [Reader.report])⟩

theorem picks_checkCount (count : Nat) (fault : SyntaxFault) :
    Picks (checkCount count fault) fun _ cs _ => cs = [] ∧ count < maxArity :=
  .ite (fun _ => picks_report _ _) fun h => .pure fun _ => ⟨rfl, Nat.lt_of_not_le h⟩

theorem picks_recover (h : Picks rule Q) : Picks (recover rule) fun found cs rest => ∃ a, found = some a ∧ Q a cs rest := by
  intro r all hall
  have h := h r all hall
  unfold recover
  cases hr : rule r with
  | exhausted => trivial
  | done a r' =>
    rw [hr] at h
    refine ⟨h.1, fun he => ?_⟩
    obtain ⟨cs, rest, hcs, hrest, hq⟩ := h.2 he
    exact ⟨cs, rest, hcs, hrest, a, rfl, hq⟩
  | failed e r' =>
    rw [hr] at h
    have hl : r.Later { r'.report e with tokens := synchronize r'.tokens } :=
      ⟨(synchronize_suffix _).trans ((List.tail_suffix _).trans h.tokens), h.endLine, h.ids,
        h.errors.trans (List.prefix_append ..)⟩
    refine ⟨hl, fun he => ?_⟩
    have hlen := h.errors.length_le
    have he : r'.errors ++ [e] = r.errors := he
    rw [← he, List.length_append, List.length_singleton] at hlen
    exact absurd hlen (Nat.not_succ_le_self _)

/-! ## Optional parts -/

theorem picks_unlessAt (m : Mark) (h : Picks rule Q) : Picks (unlessAt m rule) fun found cs rest =>
    (found = none ∧ cs = []) ∨ ∃ a, found = some a ∧ Q a cs rest := by
  refine picks_silent (picks_atMark m) fun found => .ite (fun _ => ?_) fun _ => ?_
  · exact .pure fun _ => .inl ⟨rfl, rfl⟩
  · exact h.bind fun a cs => .pure fun rest hq => .inr ⟨a, rfl, by rwa [List.append_nil]⟩

theorem picks_ifAccepted (kind : Kind) (h : Picks rule Q) : Picks (ifAccepted kind rule) fun found cs rest =>
    (found = none ∧ cs = [] ∧ Choice.next? rest ≠ some kind) ∨
      ∃ a c cs', found = some a ∧ cs = c :: cs' ∧ c.kind = kind ∧ Q a cs' rest := by
  refine picks_choice kind (fun c hc => ?_) (.pure fun rest hne => .inl ⟨rfl, rfl, hne⟩)
  exact h.bind fun a cs => .pure fun rest hq => .inr ⟨a, c, cs, rfl, by rw [List.append_nil], hc, hq⟩

theorem picks_endBody (closed : Bool) : Picks (endBody closed) fun _ cs _ => cs.map Choice.kind = endKinds closed := by
  cases closed with
  | true => exact picks_mark _ _ fun c hc => .pure fun _ => congrArg (· :: []) hc
  | false => exact .pure fun _ => rfl

/-! ## Operators -/

theorem picks_acceptAssignment : Picks acceptAssignment fun found cs rest =>
    (found = none ∧ cs = [] ∧ ∀ m form, Choice.next? rest = some (.mark m) → Assignment.ofMark? m ≠ some form) ∨
      ∃ form site c m, found = some (form, site) ∧ cs = [c] ∧ c.kind = .mark m ∧ Assignment.ofMark? m = some form ∧
        site.line = c.line := by
  refine picks_site fun site => picks_peek fun kind => ?_
  split
  · rename_i m
    split
    · rename_i form hform
      exact picks_skipped fun c rest hc hsite => .inr ⟨form, site, c, m, rfl, rfl, hc, hform, hsite c rest rfl⟩
    · rename_i hnone
      refine .pure fun rest hk _ => .inl ⟨rfl, rfl, fun m' form hm hform => ?_⟩
      rw [List.nil_append, hm] at hk
      cases hk
      rw [hnone] at hform
      cases hform
  · rename_i hne
    exact .pure fun rest hk _ => .inl ⟨rfl, rfl, fun m form hm => absurd (hk.trans hm) (hne m)⟩

theorem picks_acceptLeading : Picks acceptLeading fun found cs _ => (found = none ∧ cs = []) ∨
    ∃ form site c m, found = some (form, site) ∧ cs = [c] ∧ c.kind = .mark m ∧ Leading.ofMark? m = some form ∧
      site.line = c.line := by
  refine picks_site fun site => picks_peek fun kind => ?_
  split
  · rename_i m
    split
    · rename_i form hform
      exact picks_skipped fun c rest hc hsite => .inr ⟨form, site, c, m, rfl, rfl, hc, hform, hsite c rest rfl⟩
    · exact .pure fun _ _ _ => .inl ⟨rfl, rfl⟩
  · exact .pure fun _ _ _ => .inl ⟨rfl, rfl⟩

theorem picks_acceptConnective (level : Nat) : Picks (acceptConnective level) fun found cs rest =>
    (found = none ∧ cs = [] ∧ ∀ kind op, Choice.next? rest = some kind → Connective.at? level kind ≠ some op) ∨
      ∃ op c, found = some (op, c.line) ∧ cs = [c] ∧ Connective.at? level c.kind = some op := by
  refine picks_line fun line => picks_peek fun kind? => ?_
  split
  · rename_i op hop
    obtain ⟨kind, rfl, hop⟩ := Option.bind_eq_some_iff.mp hop
    refine picks_skipped fun c rest hc hline => ?_
    obtain rfl := hline c rest rfl
    exact .inr ⟨op, c, rfl, rfl, hc ▸ hop⟩
  · rename_i hnone
    refine .pure fun rest hk _ => .inl ⟨rfl, rfl, fun kind op hkind hop => ?_⟩
    rw [List.nil_append, hkind] at hk
    rw [hk, Option.bind_some, hop] at hnone
    cases hnone

end

end Parse

end Lox
