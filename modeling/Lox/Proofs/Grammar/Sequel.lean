import Lox.Proofs.Grammar.Joined

/-!
# Tokens that come after

While a rule has tokens left, it does not see what comes after them. So it does the same whatever that is: it gives the same
result, fails with the same error, and reports the same errors on the way, each of them at a token.
-/

namespace Lox

/-! ## Errors at tokens -/

def Site.IsToken : Site → Prop
  | .lexeme .. => True
  | .endOfInput _ => False

/-- A syntax error that is found at a token, and not at the end of the input. -/
def Error.IsAtToken : Error → Prop
  | .syntactic site _ => site.IsToken
  | _ => False

namespace Reader

variable {r r₁ r' : Reader}

theorem isToken_site (h : r.Ahead) : r.site.IsToken := by
  cases ht : r.tokens with
  | nil => exact absurd ht h
  | cons t ts => simp [site, ht, Site.IsToken]

/-- The errors that were reported on the way were found at tokens. -/
def Sited (r r' : Reader) : Prop := ∀ e ∈ r'.errors, e ∈ r.errors ∨ e.IsAtToken

theorem Sited.of_eq (h : r'.errors = r.errors) : Sited r r' := fun _ he => .inl (h ▸ he)

theorem Sited.trans (h : Sited r r₁) (h' : Sited r₁ r') : Sited r r' := fun e he => (h' e he).elim (h e) .inr

theorem Sited.report {e : Error} (h : e.IsAtToken) (r : Reader) : Sited r (r.report e) := fun e' he => by
  obtain he | he := List.mem_append.mp he
  · exact .inl he
  · exact .inr (List.mem_singleton.mp he ▸ h)

end Reader

/-! ## Sequels -/

/-- What a text is followed by, and the errors that were reported before it. -/
structure Sequel where
  more : List Token
  endLine : Nat
  before : List Error

namespace Sequel

variable (x : Sequel)

def reader (r : Reader) : Reader :=
  { r with tokens := r.tokens ++ x.more, endLine := x.endLine, errors := x.before ++ r.errors }

/-- The reader does not see whether it is followed: there are tokens left, or nothing follows. -/
def Hidden (r : Reader) : Prop := r.Ahead ∨ x.more = [] ∧ x.endLine = r.endLine

/-- The last token is no `fun`, for which the token after it counts. -/
def Firm (r : Reader) : Prop := x.more = [] ∨ r.tokens.getLast?.map Token.kind ≠ some (.keyword .fun)

variable {x} {r r' : Reader}

theorem Hidden.ahead (h : x.Hidden r) (hx : x.more ≠ []) : r.Ahead := h.resolve_right fun h => hx h.1

theorem Hidden.of_later (h : x.Hidden r') (hl : r.Later r') : x.Hidden r :=
  h.imp hl.ahead fun h => ⟨h.1, h.2.trans hl.endLine⟩

theorem Firm.later (hr : x.Firm r) (h : r.Later r') : x.Firm r' := by
  obtain ⟨read, hread⟩ := h.tokens
  refine hr.imp_right fun hr => ?_
  rw [← hread, List.getLast?_append] at hr
  cases hlast : r'.tokens.getLast? with
  | none => exact nofun
  | some t => rwa [hlast] at hr

theorem kind?_reader (h : x.Hidden r) : (x.reader r).kind? = r.kind? := by
  cases ht : r.tokens with
  | nil => simp [reader, Reader.kind?, ht, (h.resolve_left (not_not.mpr ht)).1]
  | cons t ts => simp [reader, Reader.kind?, ht]

theorem line_reader (h : x.Hidden r) : (x.reader r).line = r.line := by
  cases ht : r.tokens with
  | nil =>
    obtain ⟨hmore, hline⟩ := h.resolve_left (not_not.mpr ht)
    simp [reader, Reader.line, ht, hmore, hline]
  | cons t ts => simp [reader, Reader.line, ht]

theorem site_reader (h : x.Hidden r) : (x.reader r).site = r.site := by
  cases ht : r.tokens with
  | nil =>
    obtain ⟨hmore, hline⟩ := h.resolve_left (not_not.mpr ht)
    simp [reader, Reader.site, ht, hmore, hline]
  | cons t ts => simp [reader, Reader.site, ht]

theorem skip_reader (h : x.Hidden r) : (x.reader r).skip = x.reader r.skip := by
  cases ht : r.tokens with
  | nil => simp [reader, Reader.skip, ht, (h.resolve_left (not_not.mpr ht)).1]
  | cons t ts => simp [reader, Reader.skip, ht]

theorem report_reader (e : Error) : (x.reader r).report e = x.reader (r.report e) := by
  simp [reader, Reader.report]

end Sequel

section
variable {α β : Type} {x : Sequel} {C C' : Reader → Prop} {r : Reader}

/-- The rule does the same where it is followed, and finds its errors at tokens. It may be required that it does not see what
it is followed by where it gives a result; where it does not see that and fails, it does so in any case. -/
def Overlooks (x : Sequel) (C : Reader → Prop) (rule : Parse α) (r : Reader) : Prop :=
  x.Firm r → match rule r with
    | .done a r' => r.Later r' ∧ (C r' → rule (x.reader r) = .done a (x.reader r') ∧ (x.more ≠ [] → r.Sited r'))
    | .failed e r' => r.Later r' ∧ (x.Hidden r' →
        rule (x.reader r) = .failed e (x.reader r') ∧ (x.more ≠ [] → r.Sited r' ∧ e.IsAtToken))
    | .exhausted => True

namespace Overlooks

abbrev Closed : Reader → Prop := fun _ => True

theorem done {rule : Parse α} {a : α} {r' : Reader} (h : Overlooks x C rule r) (hr : x.Firm r) (ho : rule r = .done a r') :
    r.Later r' ∧ (C r' → rule (x.reader r) = .done a (x.reader r') ∧ (x.more ≠ [] → r.Sited r')) := by
  have h := h hr
  rwa [ho] at h

theorem failed {rule : Parse α} {e : Error} {r' : Reader} (h : Overlooks x C rule r) (hr : x.Firm r) (ho : rule r = .failed e r') :
    r.Later r' ∧ (x.Hidden r' →
      rule (x.reader r) = .failed e (x.reader r') ∧ (x.more ≠ [] → r.Sited r' ∧ e.IsAtToken)) := by
  have h := h hr
  rwa [ho] at h

theorem of_done {rule : Parse α} {a : α} {r' : Reader} (ho : rule r = .done a r') (hl : r.Later r')
    (hs : x.more ≠ [] → C r' → r.Sited r') (h : C r' → rule (x.reader r) = .done a (x.reader r')) : Overlooks x C rule r := by
  intro _
  rw [ho]
  exact ⟨hl, fun hC => ⟨h hC, fun hx => hs hx hC⟩⟩

/-- The rule reports nothing. -/
theorem quiet {rule : Parse α} {a : α} {r' : Reader} (ho : rule r = .done a r') (hl : r.Later r')
    (he : r'.errors = r.errors) (h : C r' → rule (x.reader r) = .done a (x.reader r')) : Overlooks x C rule r :=
  .of_done ho hl (fun _ _ => .of_eq he) h

/-- The rule fails at the next token. -/
theorem fails {rule : Parse α} {fault : SyntaxFault} (ho : rule r = .failed (.syntactic r.site fault) r)
    (h : x.Hidden r → rule (x.reader r) = .failed (.syntactic (x.reader r).site fault) (x.reader r)) : Overlooks x C rule r := by
  intro _
  rw [ho]
  refine ⟨.refl r, fun hx => ⟨?_, fun hmore => ⟨.of_eq rfl, Reader.isToken_site (hx.ahead hmore)⟩⟩⟩
  rw [h hx, Sequel.site_reader hx]

theorem bind {rule : Parse α} {next : α → Parse β} (h : Overlooks x C' rule r) (ha : ∀ r', x.Hidden r' → C' r')
    (hn : ∀ a r₁, rule r = .done a r₁ → r.Later r₁ → Overlooks x C (next a) r₁)
    (hc : ∀ a r₁ b r₂, next a r₁ = .done b r₂ → r₁.Later r₂ → C r₂ → C' r₁) : Overlooks x C (rule >>= next) r := by
  intro hr
  have h := h hr
  rw [Run.bind_apply]
  cases ho : rule r with
  | exhausted => trivial
  | failed e r₁ =>
    rw [ho] at h
    refine ⟨h.1, fun hx => ⟨?_, (h.2 hx).2⟩⟩
    rw [Run.bind_apply, (h.2 hx).1]
  | done a r₁ =>
    rw [ho] at h
    obtain ⟨hl, h⟩ := h
    have hn := hn a r₁ ho hl (hr.later hl)
    dsimp only
    cases ho' : next a r₁ with
    | exhausted => trivial
    | failed e r₂ =>
      rw [ho'] at hn
      refine ⟨hl.trans hn.1, fun hx => ?_⟩
      obtain ⟨heq, hsited⟩ := h (ha r₁ (hx.of_later hn.1))
      obtain ⟨heq', hsited'⟩ := hn.2 hx
      rw [Run.bind_apply, heq]
      exact ⟨heq', fun hmore => ⟨(hsited hmore).trans (hsited' hmore).1, (hsited' hmore).2⟩⟩
    | done b r₂ =>
      rw [ho'] at hn
      refine ⟨hl.trans hn.1, fun hC => ?_⟩
      obtain ⟨heq, hsited⟩ := h (hc a r₁ b r₂ ho' hn.1 hC)
      obtain ⟨heq', hsited'⟩ := hn.2 hC
      rw [Run.bind_apply, heq]
      exact ⟨heq', fun hmore => (hsited hmore).trans (hsited' hmore)⟩

/-- The first rule does not look further. -/
theorem closed {rule : Parse α} {next : α → Parse β} (h : Overlooks x Closed rule r)
    (hn : ∀ a r₁, rule r = .done a r₁ → r.Later r₁ → Overlooks x C (next a) r₁) : Overlooks x C (rule >>= next) r :=
  h.bind (fun _ _ => trivial) hn fun _ _ _ _ _ _ _ => trivial

/-- The first rule may look at the next token, and in the end there is one or nothing follows. -/
theorem hidden {rule : Parse α} {next : α → Parse β} (h : Overlooks x x.Hidden rule r)
    (hn : ∀ a r₁, rule r = .done a r₁ → r.Later r₁ → Overlooks x x.Hidden (next a) r₁) : Overlooks x x.Hidden (rule >>= next) r :=
  h.bind (fun _ => id) hn fun _ _ _ _ _ hl hx => hx.of_later hl

/-- The first rule may look at the next token, which the next rule reads. -/
theorem upTo {rule : Parse α} {next : α → Parse β} (h : Overlooks x x.Hidden rule r) (hh : ∀ a, Hungry (next a))
    (hn : ∀ a r₁, rule r = .done a r₁ → r.Later r₁ → Overlooks x C (next a) r₁) : Overlooks x C (rule >>= next) r :=
  h.bind (fun _ => id) hn fun a r₁ b r₂ hb _ _ => .inl (hh a r₁ b r₂ hb)

theorem weaken {rule : Parse α} (h : Overlooks x C' rule r) (hc : ∀ r', C r' → C' r') : Overlooks x C rule r := by
  intro hr
  have h := h hr
  cases ho : rule r with
  | exhausted => trivial
  | failed e r' => rw [ho] at h; exact h
  | done a r' => rw [ho] at h; exact ⟨h.1, fun hC => h.2 (hc r' hC)⟩

theorem pure (a : α) : Overlooks x C (Pure.pure a : Parse α) r := .quiet rfl (.refl r) rfl fun _ => rfl

theorem exhausted : Overlooks x C (Run.exhausted : Parse α) r := fun _ => trivial

theorem fail (fault : SyntaxFault) : Overlooks x C (Parse.fail fault : Parse α) r := .fails rfl fun _ => rfl

theorem ite {c : Prop} [Decidable c] {yes no : Parse α} (hy : c → Overlooks x C yes r) (hn : ¬ c → Overlooks x C no r) :
    Overlooks x C (if c then yes else no) r := by
  split
  · exact hy ‹_›
  · exact hn ‹_›

/-- The rule reads a token in any case, so there is one or nothing follows. -/
theorem hungry {rule : Parse α} {dry : Prop} {Q : α → Reader → Prop} (hm : Meets (fun _ => True) rule r dry Q)
    (hq : ∀ a r', Q a r' → r'.tokens.length < r.tokens.length) (h : x.Hidden r → Overlooks x C rule r) : Overlooks x C rule r := by
  by_cases hx : x.Hidden r
  · exact h hx
  intro _
  have hm := hm fun _ _ _ _ => trivial
  cases ho : rule r with
  | exhausted => trivial
  | failed e r' =>
    rw [ho] at hm
    exact ⟨hm, fun hx' => absurd (hx'.of_later hm) hx⟩
  | done a r' =>
    rw [ho] at hm
    exact absurd (.inl (List.ne_nil_of_length_pos (Nat.lt_of_le_of_lt (Nat.zero_le _) (hq a r' hm.2)))) hx

end Overlooks

/-! ## Single tokens -/

namespace Parse

open Reader

section
variable (h : C r → x.Hidden r)
include h

theorem overlooks_read {g : Reader → α} (hg : x.Hidden r → g (x.reader r) = g r) : Overlooks x C (Run.read g) r :=
  .quiet rfl (.refl r) rfl fun hC => by rw [Run.read_apply, hg (h hC)]

theorem overlooks_line : Overlooks x C line r := overlooks_read h Sequel.line_reader

theorem overlooks_kind : Overlooks x C kind? r := overlooks_read h Sequel.kind?_reader

theorem overlooks_site : Overlooks x C (Run.read Reader.site) r := overlooks_read h Sequel.site_reader

theorem overlooks_accept (kind : Token.Kind) : Overlooks x C (accept kind) r := by
  by_cases hk : r.kind? = some kind
  · refine .quiet (if_pos hk) (.skip r) rfl fun _ => ?_
    have hx : x.Hidden r := .inl (ahead_of_kind hk)
    rw [accept, Sequel.kind?_reader hx, if_pos hk, Sequel.skip_reader hx]
  · refine .quiet (if_neg hk) (.refl r) rfl fun hC => ?_
    rw [accept, Sequel.kind?_reader (h hC), if_neg hk]

theorem overlooks_atFunctionDeclaration : Overlooks x C atFunctionDeclaration r := by
  by_cases hk : r.kind? = some (.keyword .fun)
  · -- the last token is another one or nothing follows it, so the first two tokens decide
    intro hr
    refine ⟨.refl r, fun _ => ⟨?_, fun _ => .of_eq rfl⟩⟩
    obtain ⟨tokens, endLine, nextId, errors⟩ := r
    match tokens, ahead_of_kind hk with
    | [⟨kind, line⟩], _ =>
      have hmore := hr.resolve_right (not_not.mpr hk)
      unfold atFunctionDeclaration
      simp [Run.read, Sequel.reader, hmore]
    | ⟨kind, line⟩ :: ⟨kind', line'⟩ :: ts, _ =>
      obtain rfl : kind = .keyword .fun := Option.some.inj hk
      cases kind' <;> rfl
  · exact .quiet (atFunctionDeclaration_of_ne hk) (.refl r) rfl fun hC =>
      atFunctionDeclaration_of_ne (by rwa [Sequel.kind?_reader (h hC)])

end

theorem overlooks_skip (h : x.Hidden r) : Overlooks x C skip r :=
  .quiet rfl (.skip r) rfl fun _ => congrArg _ (Sequel.skip_reader h)

/-- Where the next token is seen, what the rule does depends on whether it is the given one. -/
theorem overlooks_choice {yes no : Parse α} {kind : Token.Kind} (h : x.Hidden r)
    (hy : r.kind? = some kind → Overlooks x C yes r.skip) (hn : r.kind? ≠ some kind → Overlooks x C no r) :
    Overlooks x C (do if ← accept kind then yes else no) r := by
  refine .closed (overlooks_accept (fun _ => h) kind) fun found r₁ hr _ => ?_
  unfold accept at hr
  split at hr
  · rename_i hk; cases hr; exact hy hk
  · rename_i hk; cases hr; exact hn hk

theorem overlooks_expectMark (m : Mark) (place : Place) : Overlooks x C (expectMark m place) r := by
  by_cases hk : r.kind? = some (.mark m)
  · refine .quiet (if_pos hk) (.skip r) rfl fun _ => ?_
    have hx : x.Hidden r := .inl (ahead_of_kind hk)
    rw [expectMark, Sequel.kind?_reader hx, if_pos hk, Sequel.skip_reader hx, Sequel.line_reader hx]
  · exact .fails (if_neg hk) fun hx => by rw [expectMark, Sequel.kind?_reader hx, if_neg hk]

theorem overlooks_expectName (fault : SyntaxFault) : Overlooks x C (expectName fault) r := by
  by_cases hk : ∃ text, r.kind? = some (.identifier text)
  · obtain ⟨text, hk⟩ := hk
    have hx : x.Hidden r := .inl (ahead_of_kind hk)
    refine .quiet (by rw [expectName, hk]) (.skip r) rfl fun _ => ?_
    rw [expectName, Sequel.kind?_reader hx, hk, Sequel.skip_reader hx, Sequel.line_reader hx]
  · have hno : ∀ r' : Reader, r'.kind? = r.kind? → expectName fault r' = .failed (.syntactic r'.site fault) r' := by
      intro r' hr'
      unfold expectName
      split
      · rename_i text ht
        exact absurd ⟨text, hr'.symm.trans ht⟩ hk
      · rfl
    exact .fails (hno r rfl) fun hx => hno _ (Sequel.kind?_reader hx)

theorem overlooks_freshId : Overlooks x C freshId r :=
  .quiet rfl ⟨List.suffix_rfl, rfl, Nat.le_succ _, List.prefix_rfl⟩ rfl fun _ => rfl

theorem overlooks_reread (e : Expr) : Overlooks x C (reread e) r :=
  .quiet rfl ⟨List.suffix_rfl, rfl, (e.fresh_spans _).le, List.prefix_rfl⟩ rfl fun _ => rfl

/-! ## Reports -/

theorem overlooks_reportAt {site : Site} (hs : site.IsToken) (fault : SyntaxFault) :
    Overlooks x C (reportAt site fault) r := by
  have hs : Error.IsAtToken (.syntactic site fault) := hs
  exact .of_done rfl (.report r _) (fun _ _ => .report hs r) fun _ => congrArg _ (Sequel.report_reader _)

theorem overlooks_checkCount (count : Nat) (fault : SyntaxFault) : Overlooks x x.Hidden (checkCount count fault) r := by
  refine .ite (fun _ => ?_) fun _ => .pure ()
  have hs : r.Ahead → Error.IsAtToken (.syntactic r.site fault) := isToken_site
  refine .of_done rfl (.report r _) (fun hmore hx => .report (hs (hx.ahead hmore)) r) fun hx => ?_
  rw [report, Sequel.site_reader (r := r) hx, Sequel.report_reader]

theorem overlooks_endBody (closed : Bool) : Overlooks x C (endBody closed) r :=
  .ite (fun _ => .closed (overlooks_expectMark _ _) fun _ _ _ _ => .pure ()) fun _ => .pure ()

theorem overlooks_recover {rule : Parse α} (h : Overlooks x C rule r)
    (hs : ∀ e r₁, rule r = .failed e r₁ → C { r₁.report e with tokens := synchronize r₁.tokens } →
      x.Hidden r₁ ∧ synchronize (r₁.tokens ++ x.more) = synchronize r₁.tokens ++ x.more) : Overlooks x C (recover rule) r := by
  intro hr
  unfold recover
  cases ho : rule r with
  | exhausted => trivial
  | done a r₁ =>
    obtain ⟨hl, h⟩ := h.done hr ho
    exact ⟨hl, fun hC => ⟨by rw [(h hC).1], (h hC).2⟩⟩
  | failed e r₁ =>
    obtain ⟨hl, h⟩ := h.failed hr ho
    have hsuffix := (synchronize_suffix r₁.tokens).trans (List.tail_suffix _)
    refine ⟨⟨hsuffix.trans hl.tokens, hl.endLine, hl.ids, hl.errors.trans (List.prefix_append ..)⟩, fun hC => ?_⟩
    obtain ⟨hx, hsync⟩ := hs e r₁ ho hC
    obtain ⟨heq, hsited⟩ := h hx
    refine ⟨?_, fun hmore => (hsited hmore).1.trans (.report (hsited hmore).2 r₁)⟩
    rw [heq]
    simp [Sequel.reader, Reader.report, hsync]

/-! ## Operators and assignments -/

section
variable {γ : Type} (ofMark? : Mark → Option γ)

/-- The mark of some form, if it comes next, and its place. -/
def acceptForm : Parse (Option (γ × Site)) := do
  let site ← Run.read Reader.site
  match ← kind? with
  | some (.mark m) =>
    match ofMark? m with
    | some form => do skip; return some (form, site)
    | none => return none
  | _ => return none

theorem overlooks_acceptForm : Overlooks x x.Hidden (acceptForm ofMark?) r := by
  refine .hidden (overlooks_site id) fun site _ hr _ => .hidden (overlooks_kind id) fun kind r₁ hr' _ => ?_
  cases hr
  cases hr'
  split
  · rename_i m hk
    split
    · exact .hidden (overlooks_skip (.inl (ahead_of_kind hk))) fun _ _ _ _ => .pure _
    · exact .pure _
  · exact .pure _

theorem isToken_of_acceptForm {form : γ} {site : Site} {r' : Reader}
    (h : acceptForm ofMark? r = .done (some (form, site)) r') : site.IsToken := by
  generalize hk : r.kind? = kind
  simp only [acceptForm, kind?, Run.bind_apply, Run.read_apply, hk] at h
  cases kind with
  | none => cases h
  | some kind =>
    have ha := isToken_site (ahead_of_kind hk)
    cases kind with
    | mark m =>
      dsimp only at h
      cases hm : ofMark? m with
      | none => rw [hm] at h; cases h
      | some form => rw [hm] at h; cases h; exact ha
    | _ => cases h

end

theorem acceptAssignment_eq : acceptAssignment = acceptForm Assignment.ofMark? := by
  refine congrArg (Run.read Reader.site >>= ·) (funext fun site => congrArg (kind? >>= ·) (funext fun kind => ?_))
  match kind with
  | none => rfl
  | some (.mark m) => cases h : Assignment.ofMark? m <;> simp only [h]
  | some (.keyword _) | some (.identifier _) | some (.number ..) | some (.string _) | some .eof => rfl

theorem acceptLeading_eq : acceptLeading = acceptForm Leading.ofMark? := by
  refine congrArg (Run.read Reader.site >>= ·) (funext fun site => congrArg (kind? >>= ·) (funext fun kind => ?_))
  match kind with
  | none => rfl
  | some (.mark m) => cases h : Leading.ofMark? m <;> simp only [h]
  | some (.keyword _) | some (.identifier _) | some (.number ..) | some (.string _) | some .eof => rfl

theorem overlooks_acceptConnective (level : Nat) : Overlooks x x.Hidden (acceptConnective level) r := by
  refine .hidden (overlooks_line id) fun line _ hr _ => .hidden (overlooks_kind id) fun kind r₁ hr' _ => ?_
  cases hr
  cases hr'
  cases hk : r.kind? with
  | none => exact .pure _
  | some kind =>
    dsimp only [Option.bind_some]
    cases Connective.at? level kind with
    | none => exact .pure _
    | some c => exact .hidden (overlooks_skip (.inl (ahead_of_kind hk))) fun _ _ _ _ => .pure _

theorem overlooks_assignTo (target value : Expr) {site : Site} (hs : site.IsToken) (fault : SyntaxFault) :
    Overlooks x C (assignTo target value site fault) r := by
  cases target with
  | var id name => exact .closed overlooks_freshId fun _ _ _ _ => .pure _
  | get object name => exact .pure _
  | _ => exact .closed (overlooks_reportAt hs _) fun _ _ _ _ => .pure _

theorem overlooks_updateBy (op : Mark) (target operand : Expr) {site : Site} (hs : site.IsToken) (fault : SyntaxFault) :
    Overlooks x C (updateBy op target operand site fault) r :=
  .closed (overlooks_reread target) fun _ _ _ _ => overlooks_assignTo _ _ hs _

/-! ## Optional parts -/

theorem overlooks_before (m : Mark) : Overlooks x x.Hidden (before m) r :=
  .hidden (overlooks_kind id) fun _ _ _ _ => .pure _

theorem overlooks_unlessAt {rule : Parse α} (m : Mark) (h : ∀ r, Overlooks x x.Hidden rule r) :
    Overlooks x x.Hidden (unlessAt m rule) r := by
  refine .hidden (.hidden (overlooks_kind id) fun _ _ _ _ => .pure _) fun _ r₁ _ _ => .ite (fun _ => .pure _) fun _ => ?_
  exact .hidden (h r₁) fun _ _ _ _ => .pure _

theorem overlooks_ifAccepted {rule : Parse α} (kind : Token.Kind) (h : ∀ r, Overlooks x x.Hidden rule r) :
    Overlooks x x.Hidden (ifAccepted kind rule) r :=
  .hidden (overlooks_accept id kind) fun _ r₁ _ _ => .ite (fun _ => .hidden (h r₁) fun _ _ _ _ => .pure _) fun _ => .pure _

/-! ## Atoms, parameters and superclasses -/

theorem overlooks_atom : Overlooks x x.Hidden atom? r := by
  refine .hidden (overlooks_line id) fun line _ hr _ => .hidden (overlooks_kind id) fun kind r₁ hr' _ => ?_
  cases hr
  cases hr'
  cases hk : r.kind? with
  | none => exact .pure _
  | some kind =>
    have hx : x.Hidden r := .inl (ahead_of_kind hk)
    split
    case h_6 => exact .hidden (overlooks_skip hx) fun _ _ _ _ => .hidden overlooks_freshId fun _ _ _ _ => .pure _
    case h_7 =>
      refine .hidden (overlooks_skip hx) fun _ _ _ _ => .hidden (overlooks_expectMark _ _) fun _ _ _ _ => ?_
      exact .hidden (overlooks_expectName _) fun _ _ _ _ => .hidden overlooks_freshId fun _ _ _ _ => .pure _
    case h_8 => exact .hidden (overlooks_skip hx) fun _ _ _ _ => .hidden overlooks_freshId fun _ _ _ _ => .pure _
    case h_9 => exact .pure _
    all_goals exact .hidden (overlooks_skip hx) fun _ _ _ _ => .pure _

theorem overlooks_parameterList : ∀ (fuel count : Nat) (r : Reader), Overlooks x x.Hidden (parameterList fuel count) r
  | 0, _, _ => .exhausted
  | fuel + 1, count, r => by
    rw [parameterList]
    refine .hidden (overlooks_checkCount _ _) fun _ _ _ _ => .hidden (overlooks_expectName _) fun param _ _ _ => ?_
    refine .hidden (overlooks_accept id _) fun _ r₁ _ _ => .ite (fun _ => ?_) fun _ => .pure _
    exact .hidden (overlooks_parameterList fuel (count + 1) r₁) fun _ _ _ _ => .pure _

theorem overlooks_parameters (fuel : Nat) : Overlooks x C (parameters fuel) r :=
  .upTo (overlooks_unlessAt _ (overlooks_parameterList fuel 0)) (fun _ => (hungry_expectMark _ _).bind _) fun _ _ _ _ =>
    .closed (overlooks_expectMark _ _) fun _ _ _ _ => .pure _

theorem overlooks_superclass : Overlooks x x.Hidden superclass? r := by
  refine .hidden (overlooks_accept id _) fun _ _ _ _ => .ite (fun _ => ?_) fun _ => .pure _
  exact .hidden (overlooks_expectName _) fun _ _ _ _ => .hidden overlooks_freshId fun _ _ _ _ => .pure _

end Parse

end

end Lox
