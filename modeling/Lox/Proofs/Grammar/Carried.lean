import Lox.Proofs.Grammar.Setting

/-!
# Small rules inside a larger text

The rules that read a few tokens read the same where the text stands in a larger one.
-/

namespace Lox

namespace Parse

open Reader

section
variable {α : Type} {s : Setting} {r : Reader} {C : Reader → Prop}

/-! ## Single tokens -/

theorem carries_read {f : α → α} {g : Reader → α} (h : g (s.reader r) = f (g r)) :
    Carries s f C (Run.read g) (Run.read g) r := by
  intro a r' hr
  cases hr
  exact ⟨.refl r, fun _ _ => .inr (by rw [← h]; rfl)⟩

theorem carries_line (h : r.Ahead) : Carries s s.lineOf C line line r := carries_read (Setting.line_reader h)

theorem carries_kind (h : r.Ahead) : Carries s id C kind? kind? r := carries_read (Setting.kind?_reader h)

theorem carries_site (h : r.Ahead) : Carries s (Site.relined s.lineOf) C (Run.read Reader.site) (Run.read Reader.site) r :=
  carries_read (Setting.site_reader h)

theorem carries_skip (h : r.Ahead) : Carries s id C skip skip r := by
  intro a r' hr
  cases hr
  exact ⟨.skip r, fun _ _ => .inr (congrArg _ (Setting.skip_reader h))⟩

theorem carries_accept (kind : Token.Kind) (h : r.Ahead) : Carries s id C (accept kind) (accept kind) r := by
  have hk := Setting.kind?_reader (s := s) h
  intro a r' hr
  unfold accept at hr ⊢
  rw [hk]
  split at hr
  · rename_i hkind
    cases hr
    rw [if_pos hkind]
    exact ⟨.skip r, fun _ _ => .inr (congrArg _ (Setting.skip_reader h))⟩
  · rename_i hkind
    cases hr
    rw [if_neg hkind]
    exact ⟨.refl r, fun _ _ => .inr rfl⟩

theorem carries_choice {f : α → α} {yes no yes' no' : Parse α} {kind : Token.Kind} (h : r.Ahead)
    (hy : r.kind? = some kind → Carries s f C yes yes' r.skip) (hn : r.kind? ≠ some kind → Carries s f C no no' r) :
    Carries s f C (do if ← accept kind then yes else no) (do if ← accept kind then yes' else no') r := by
  refine .closed (carries_accept kind h) fun found r₁ hr _ => ?_
  unfold accept at hr
  split at hr
  · rename_i hk; cases hr; exact hy hk
  · rename_i hk; cases hr; exact hn hk

/-- What follows the text does not start with an `else`. -/
theorem carries_acceptElse : Carries s id C (acceptKeyword .else) (acceptKeyword .else) r := by
  by_cases h : r.Ahead
  · exact carries_accept _ h
  intro a r' hr
  have ht : r.tokens = [] := not_not.mp h
  have hk : (s.reader r).kind? ≠ some (.keyword .else) := by simpa [Setting.reader, Reader.kind?, ht] using s.fresh
  unfold acceptKeyword accept at hr ⊢
  rw [if_neg (by simp [Reader.kind?, ht])] at hr
  rw [if_neg hk]
  cases hr
  exact ⟨.refl r, fun _ _ => .inr rfl⟩

theorem hungry_expectMark (m : Mark) (place : Place) : Hungry (expectMark m place) := by
  intro r a r' hr
  unfold expectMark at hr
  split at hr
  · rename_i hk; exact ahead_of_kind hk
  · cases hr

theorem carries_expectMark (m : Mark) (place : Place) :
    Carries s s.lineOf C (expectMark m place) (expectMark m place) r := by
  intro a r' hr
  have h := hungry_expectMark m place r a r' hr
  unfold expectMark at hr ⊢
  rw [Setting.kind?_reader h, Setting.line_reader h, Setting.skip_reader h]
  split at hr
  · rename_i hk
    cases hr
    rw [if_pos hk]
    exact ⟨.skip r, fun _ _ => .inr rfl⟩
  · cases hr

theorem hungry_expectName (fault : SyntaxFault) : Hungry (expectName fault) := by
  intro r a r' hr
  unfold expectName at hr
  split at hr
  · rename_i hk; exact ahead_of_kind hk
  · cases hr

theorem carries_expectName (fault : SyntaxFault) :
    Carries s (Name.relined s.lineOf) C (expectName fault) (expectName fault) r := by
  intro a r' hr
  have h := hungry_expectName fault r a r' hr
  unfold expectName at hr ⊢
  rw [Setting.kind?_reader h, Setting.line_reader h, Setting.skip_reader h]
  split at hr
  · rename_i text hk
    cases hr
    exact ⟨.skip r, fun _ _ => .inr rfl⟩
  · cases hr

theorem carries_freshId : Carries s id C freshId freshId r := by
  intro a r' hr
  cases hr
  exact ⟨⟨List.suffix_rfl, rfl, Nat.le_succ _, List.prefix_rfl⟩, fun _ _ => .inr rfl⟩

theorem carries_reread (e : Expr) :
    Carries s (Expr.relined s.lineOf) C (reread e) (reread (e.relined s.lineOf)) r := by
  intro a r' hr
  cases hr
  refine ⟨⟨List.suffix_rfl, rfl, (e.fresh_spans _).le, List.prefix_rfl⟩, fun _ _ => .inr ?_⟩
  have hfresh := Expr.fresh_relined s.lineOf e (s.reader r).nextId
  simp only [reread, hfresh]
  rfl

theorem atFunctionDeclaration_of_ne {r : Reader} (h : r.kind? ≠ some (.keyword .fun)) :
    atFunctionDeclaration r = .done false r := by
  unfold atFunctionDeclaration Run.read
  dsimp only
  split
  · rename_i ht; simp [Reader.kind?, ht] at h
  · rfl

theorem carries_atFunctionDeclaration (h : r.Ahead) (hm : r.kind? = some (.keyword .fun) → 1 < r.tokens.length) :
    Carries s id C atFunctionDeclaration atFunctionDeclaration r := by
  by_cases hk : r.kind? = some (.keyword .fun)
  · refine carries_read ?_
    obtain ⟨tokens, endLine, nextId, errors⟩ := r
    match tokens, h with
    | [⟨kind, line⟩], _ => exact absurd (hm hk) (Nat.lt_irrefl 1)
    | ⟨kind, line⟩ :: ⟨kind', line'⟩ :: ts, _ =>
      obtain rfl : kind = .keyword .fun := by simpa [Reader.kind?] using hk
      cases kind' <;> rfl
  · intro a r' hr
    rw [atFunctionDeclaration_of_ne hk] at hr
    rw [atFunctionDeclaration_of_ne (by rwa [Setting.kind?_reader h])]
    cases hr
    exact ⟨.refl r, fun _ _ => .inr rfl⟩

/-! ## Reports -/

theorem ne_report (r : Reader) (e : Error) : (r.report e).errors ≠ r.errors := by
  simp [Reader.report]

theorem carries_report {f : Unit → Unit} (fault : SyntaxFault) (rule' : Parse Unit) : Carries s f C (report fault) rule' r := by
  intro a r' hr
  cases hr
  exact ⟨.report r _, fun he => absurd he (ne_report r _)⟩

/-- What comes after a report does not matter. -/
theorem carries_reportAt {β : Type} {g : β → β} (site : Site) (fault : SyntaxFault) (b : β) (rule' : Parse β) :
    Carries s g C (do reportAt site fault; return b) rule' r := by
  intro a r' hr
  cases hr
  exact ⟨.report r _, fun he => absurd he (ne_report r _)⟩

theorem carries_checkCount (count : Nat) (fault : SyntaxFault) :
    Carries s id C (checkCount count fault) (checkCount count fault) r :=
  .ite Iff.rfl (fun _ => carries_report _ _) fun _ => .pure ()

theorem hungry_endBody : Hungry (endBody true) := (hungry_expectMark _ _).bind _

theorem carries_endBody (closed : Bool) : Carries s id C (endBody closed) (endBody closed) r :=
  .ite Iff.rfl (fun _ => .closed (carries_expectMark _ _) fun _ _ _ _ => .pure ()) fun _ => .pure ()

theorem carries_recover {f : α → α} {rule rule' : Parse α} {dry : Prop} {Q : Option α → Reader → Prop}
    (hm : Meets (fun _ => True) (recover rule) r dry Q) (hq : ∀ r', Q none r' → r.errors.length < r'.errors.length)
    (h : Carries s f Carries.Closed rule rule' r) : Carries s (Option.map f) C (recover rule) (recover rule') r := by
  intro a r' hr
  have hm := hm fun _ _ _ _ => trivial
  rw [hr] at hm
  refine ⟨hm.1, fun he _ => ?_⟩
  unfold recover at hr ⊢
  cases hrule : rule r with
  | exhausted => rw [hrule] at hr; cases hr
  | failed e r₁ =>
    rw [hrule] at hr
    cases hr
    have hlt := hq _ hm.2
    rw [he] at hlt
    exact absurd hlt (Nat.lt_irrefl _)
  | done b r₁ =>
    rw [hrule] at hr
    cases hr
    rcases (h b r' hrule).2 he trivial with h | h
    · rw [h]; exact .inl rfl
    · rw [h]; exact .inr rfl

/-! ## Operators and assignments -/

/-- A finding with its place. -/
abbrev placed {β : Type} (s : Setting) : Option (β × Site) → Option (β × Site) := Option.map (Prod.map id (Site.relined s.lineOf))

theorem carries_acceptAssignment (h : r.Ahead) : Carries s (placed s) C acceptAssignment acceptAssignment r := by
  refine .closed (carries_site h) fun site r₁ hr _ => ?_
  cases hr
  refine .closed (carries_kind h) fun kind r₁ hr _ => ?_
  cases hr
  dsimp only [id]
  split
  · rename_i m _
    cases Assignment.ofMark? m with
    | none => exact .pure none
    | some form => exact .closed (carries_skip h) fun _ _ _ _ => .pure (f := placed s) (some (form, r.site))
  · exact .pure none

theorem carries_acceptLeading (h : r.Ahead) : Carries s (placed s) C acceptLeading acceptLeading r := by
  refine .closed (carries_site h) fun site r₁ hr _ => ?_
  cases hr
  refine .closed (carries_kind h) fun kind r₁ hr _ => ?_
  cases hr
  dsimp only [id]
  split
  · rename_i m _
    cases Leading.ofMark? m with
    | none => exact .pure none
    | some form => exact .closed (carries_skip h) fun _ _ _ _ => .pure (f := placed s) (some (form, r.site))
  · exact .pure none

theorem carries_acceptConnective (level : Nat) (h : r.Ahead) :
    Carries s (Option.map (Prod.map id s.lineOf)) C (acceptConnective level) (acceptConnective level) r := by
  refine .closed (carries_line h) fun line r₁ hr _ => ?_
  cases hr
  refine .closed (carries_kind h) fun kind r₁ hr _ => ?_
  cases hr
  dsimp only [id]
  cases Option.bind r.kind? (Connective.at? level) with
  | none => exact .pure none
  | some c => exact .closed (carries_skip h) fun _ _ _ _ => .pure (f := Option.map (Prod.map id s.lineOf)) (some (c, r.line))

theorem carries_assignTo (target value : Expr) (site : Site) (fault : SyntaxFault) :
    Carries s (Expr.relined s.lineOf) C (assignTo target value site fault)
      (assignTo (target.relined s.lineOf) (value.relined s.lineOf) (site.relined s.lineOf) fault) r := by
  cases target with
  | var id name =>
    exact .closed carries_freshId fun id' _ _ _ => .pure (f := Expr.relined s.lineOf) (.assign id' name value)
  | get object name => exact .pure (f := Expr.relined s.lineOf) (.set object name value)
  | _ => exact carries_reportAt _ _ _ _

theorem carries_updateBy (op : Mark) (target operand : Expr) (site : Site) (fault : SyntaxFault) :
    Carries s (Expr.relined s.lineOf) C (updateBy op target operand site fault)
      (updateBy op (target.relined s.lineOf) (operand.relined s.lineOf) (site.relined s.lineOf) fault) r := by
  refine .closed (carries_reread target) fun old r₁ _ _ => ?_
  have hline : (site.relined s.lineOf).line = s.lineOf site.line := by cases site <;> rfl
  rw [hline]
  exact carries_assignTo target (.binary op site.line old operand) site fault

/-! ## With tokens left -/

theorem looks_line : Carries s s.lineOf Ahead line line r := .of_ahead meets_line carries_line

theorem looks_kind : Carries s id Ahead kind? kind? r := .of_ahead meets_kind carries_kind

theorem looks_accept (kind : Token.Kind) : Carries s id Ahead (accept kind) (accept kind) r :=
  .of_ahead (meets_accept kind) (carries_accept kind)

theorem looks_acceptAssignment : Carries s (placed s) Ahead acceptAssignment acceptAssignment r :=
  .of_ahead meets_acceptAssignment carries_acceptAssignment

theorem looks_acceptLeading : Carries s (placed s) Ahead acceptLeading acceptLeading r :=
  .of_ahead meets_acceptLeading carries_acceptLeading

theorem looks_acceptConnective (level : Nat) :
    Carries s (Option.map (Prod.map id s.lineOf)) Ahead (acceptConnective level) (acceptConnective level) r :=
  .of_ahead (meets_acceptConnective level) (carries_acceptConnective level)

theorem looks_atMark (m : Mark) : Carries s id Ahead (atMark m) (atMark m) r :=
  .ahead looks_kind fun _ _ _ _ => .pure _

theorem looks_before (m : Mark) : Carries s id Ahead (before m) (before m) r :=
  .ahead looks_kind fun _ _ _ _ => .pure _

theorem looks_unlessAt {f : α → α} {rule rule' : Parse α} (m : Mark) (h : ∀ r, Carries s f Ahead rule rule' r) :
    Carries s (Option.map f) Ahead (unlessAt m rule) (unlessAt m rule') r :=
  .ahead (looks_atMark m) fun _ r₁ _ _ => .ite Iff.rfl (fun _ => .pure none) fun _ =>
    .ahead (h r₁) fun a _ _ _ => .pure (f := Option.map f) (some a)

theorem looks_ifAccepted {f : α → α} {rule rule' : Parse α} (kind : Token.Kind) (h : ∀ r, Carries s f Ahead rule rule' r) :
    Carries s (Option.map f) Ahead (ifAccepted kind rule) (ifAccepted kind rule') r :=
  .ahead (looks_accept kind) fun _ r₁ _ _ => .ite Iff.rfl (fun _ =>
    .ahead (h r₁) fun a _ _ _ => .pure (f := Option.map f) (some a)) fun _ => .pure none

/-! ## Atoms, parameters and superclasses -/

theorem carries_atom (h : r.Ahead) : Carries s (Option.map (Expr.relined s.lineOf)) C atom? atom? r := by
  have literal : ∀ value : Literal, Carries s (Option.map (Expr.relined s.lineOf)) C
      (do skip; return some (.literal value)) (do skip; return some (.literal value)) r :=
    fun value => .closed (carries_skip h) fun _ _ _ _ => .pure (f := Option.map (Expr.relined s.lineOf)) (some (.literal value))
  refine .closed (carries_line h) fun line r₁ hr _ => ?_
  cases hr
  refine .closed (carries_kind h) fun kind r₁ hr _ => ?_
  cases hr
  dsimp only [id]
  split
  · exact literal _
  · exact literal _
  · exact literal _
  · exact literal _
  · exact literal _
  · refine .closed (carries_skip h) fun _ _ _ _ => .closed carries_freshId fun id' _ _ _ => ?_
    exact .pure (f := Option.map (Expr.relined s.lineOf)) (some (.this id' r.line))
  · refine .closed (carries_skip h) fun _ _ _ _ => .closed (carries_expectMark _ _) fun _ _ _ _ => ?_
    refine .closed (carries_expectName _) fun method _ _ _ => .closed carries_freshId fun id' _ _ _ => ?_
    exact .pure (f := Option.map (Expr.relined s.lineOf)) (some (.super id' r.line method))
  · rename_i text _
    refine .closed (carries_skip h) fun _ _ _ _ => .closed carries_freshId fun id' _ _ _ => ?_
    exact .pure (f := Option.map (Expr.relined s.lineOf)) (some (.var id' { text, line := r.line }))
  · exact .pure none

theorem looks_atom : Carries s (Option.map (Expr.relined s.lineOf)) Ahead atom? atom? r := .of_ahead meets_atom carries_atom

theorem looks_parameterList : ∀ (fuel fuel' count : Nat) (r : Reader),
    Carries s (List.map (Name.relined s.lineOf)) Ahead (parameterList fuel count) (parameterList fuel' count) r
  | 0, _, _, _ => .exhausted _
  | fuel + 1, 0, count, r => .of_exhausted (meets_parameterList (fuel + 1) count r)
  | fuel + 1, fuel' + 1, count, r => by
    rw [parameterList, parameterList]
    refine .ahead (carries_checkCount _ _) fun _ _ _ _ => .ahead (carries_expectName _) fun param _ _ _ => ?_
    refine .ahead (looks_accept _) fun _ r₁ _ _ => .ite Iff.rfl (fun _ => ?_) fun _ => ?_
    · refine .ahead (looks_parameterList fuel fuel' (count + 1) r₁) fun rest _ _ _ => ?_
      exact .pure (f := List.map (Name.relined s.lineOf)) (param :: rest)
    · exact .pure (f := List.map (Name.relined s.lineOf)) [param]

theorem carries_parameters (fuel fuel' : Nat) :
    Carries s (List.map (Name.relined s.lineOf)) C (parameters fuel) (parameters fuel') r := by
  refine .upTo (looks_unlessAt _ (looks_parameterList fuel fuel' 0)) (fun _ => (hungry_expectMark _ _).bind _) ?_
  refine fun params r₁ _ _ => .closed (carries_expectMark _ _) fun _ _ _ _ => ?_
  cases params with
  | none => exact .pure (f := List.map (Name.relined s.lineOf)) []
  | some ps => exact .pure (f := List.map (Name.relined s.lineOf)) ps

theorem looks_superclass : Carries s (Option.map (Reference.relined s.lineOf)) Ahead superclass? superclass? r := by
  refine .ahead (looks_accept _) fun _ _ _ _ => .ite Iff.rfl (fun _ => ?_) fun _ => .pure none
  refine .ahead (carries_expectName _) fun name _ _ _ => .ahead carries_freshId fun id' _ _ _ => ?_
  exact .pure (f := Option.map (Reference.relined s.lineOf)) (some { id := id', name })

end

/-! ## Loops -/

theorem bodyThen_relined (f : Nat → Nat) (body : Stmt) (increment : Option Expr) :
    bodyThen (body.relined f) (increment.map (Expr.relined f)) = (bodyThen body increment).relined f := by
  cases increment <;> rfl

theorem forLoop_relined (f : Nat → Nat) (initializer : Option Stmt) (condition increment : Option Expr) (body : Stmt) :
    forLoop (initializer.map (Stmt.relined f)) (condition.map (Expr.relined f)) (increment.map (Expr.relined f))
      (body.relined f) = (forLoop initializer condition increment body).relined f := by
  cases initializer <;> cases condition <;> simp only [forLoop, Option.map_none, Option.map_some, Option.getD_none,
    Option.getD_some, bodyThen_relined] <;> rfl

end Parse

end Lox
