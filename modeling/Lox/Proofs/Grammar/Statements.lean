import Lox.Proofs.Grammar.Rules

/-!
# Statements and whole programs

The rules of statements, and what they amount to: the fuel of a program is enough, its tree is
proper, and each of its identities is new and stands once.
-/

namespace Lox

theorem skipStatement_suffix : ∀ (last : Token) (ts : List Token), skipStatement last ts <:+ ts
  | _, [] => List.suffix_rfl
  | last, t :: ts => by
    unfold skipStatement
    split
    · exact List.suffix_rfl
    · split
      · exact List.suffix_rfl
      · exact (skipStatement_suffix t ts).trans (List.suffix_cons ..)

theorem synchronize_suffix : ∀ (ts : List Token), synchronize ts <:+ ts.tail
  | [] => List.suffix_rfl
  | t :: ts => skipStatement_suffix t ts

namespace Parse

open Reader

/-- An error in the rule costs a token and is reported. -/
theorem meets_recover {P : Name → Prop} {α : Type} {rule : Parse α} {r : Reader} {dry : Prop} {Q : α → Reader → Prop}
    (h : Meets P rule r dry Q) (hne : r.tokens ≠ []) :
    Meets P (recover rule) r dry fun a r' =>
      match a with
      | some a => Q a r'
      | none => r'.tokens.length < r.tokens.length ∧ r.errors.length < r'.errors.length := by
  intro hp
  have h := h hp
  unfold recover
  cases hr : rule r with
  | done a r' => rw [hr] at h; exact h
  | exhausted => rw [hr] at h; exact h
  | failed e r' =>
    rw [hr] at h
    have hs := synchronize_suffix r'.tokens
    refine ⟨⟨(hs.trans (List.tail_suffix _)).trans h.tokens, h.endLine, h.ids, ?_⟩, ?_, ?_⟩
    · exact h.errors.trans (List.prefix_append ..)
    · have := hs.length_le
      have := h.length_le
      have := List.length_pos_iff.mpr hne
      simp only [List.length_tail] at *
      omega
    · have hlen : (r'.report e).errors.length = r'.errors.length + 1 := by simp [Reader.report]
      exact Nat.lt_of_le_of_lt h.errors.length_le (hlen ▸ Nat.lt_succ_self _)

namespace Rules

variable {P : Name → Prop} {fuel : Nat}

/-! ## Functions and classes -/

theorem routineBody_succ (h : Rules P fuel) (closed : Bool) (r : Reader) :
    Meets P (Parse.routineBody (fuel + 1) closed) r (fuel + 1 < r.need 1) fun sts r' =>
      r'.tokens.length < r.tokens.length ∧ BodyRead P r sts r' := by
  rw [Parse.routineBody]
  refine .first meets_line fun line r₁ _ h₁ => ?_
  obtain ⟨rfl, -⟩ := h₁
  refine .first (meets_accept _) fun found r₂ h₂ hf => .ite (fun ht => ?_) fun _ => ?_
  · have hlt := hf ht
    refine (h.block r₂).imp (need_of_read hlt (by decide) · (by decide)) fun sts r₃ h₃ ⟨hs, hp⟩ => ?_
    exact ⟨Nat.lt_of_le_of_lt h₃.length_le hlt, hs.widenLeft h₂.ids, hp⟩
  · refine .first (meets_accept _) fun found r₃ h₃ hf => .ite (fun ht => ?_) fun _ => meets_fail _
    have hlt : r₃.tokens.length < r₁.tokens.length := Nat.lt_of_lt_of_le (hf ht) h₂.length_le
    refine (h.expression r₃).bind (need_of_read hlt (by decide) · (by decide)) fun e r₄ h₄ ⟨hl, hs, hp⟩ => ?_
    refine .first (meets_endBody closed) fun _ r₅ h₅ _ => .pure ⟨?_, ?_, hp, trivial⟩
    · exact Nat.lt_of_le_of_lt h₅.length_le (Nat.lt_trans hl hlt)
    · simpa [idsStmts, Stmt.ids] using (hs.widenLeft (h₂.trans h₃).ids).widen h₅.ids

theorem block_succ (h : Rules P fuel) (r : Reader) :
    Meets P (Parse.block (fuel + 1)) r (fuel + 1 < r.need 15) (BodyRead P r) := by
  rw [Parse.block]
  refine (h.declarations r).bind (need_of_lower (Nat.le_refl _) (by decide)) fun sts r₁ _ ⟨hs, hp⟩ => ?_
  exact .first (meets_expectMark _ _) fun _ r₂ h₂ _ => .pure ⟨hs.widen h₂.ids, hp⟩

theorem declarations_succ (h : Rules P fuel) (r : Reader) :
    Meets P (Parse.declarations (fuel + 1)) r (fuel + 1 < r.need 14) (BodyRead P r) := by
  rw [Parse.declarations]
  refine .first (meets_before _) fun found r₁ _ ⟨hr, hne⟩ => .ite (fun ht => ?_) fun _ => ?_
  · subst hr
    refine (h.declaration r₁ (hne ht)).bind (need_of_lower (Nat.le_refl _) (by decide)) fun first r₂ _ hq => ?_
    obtain ⟨hlt, ⟨hs, hp⟩, -⟩ := hq
    refine (h.declarations r₂).bind (need_of_read hlt (by decide) · (by decide)) fun rest r₃ _ ⟨hs', hp'⟩ => .pure ?_
    refine ⟨?_, (properStmts_append _ _).mpr ⟨hp, hp'⟩⟩
    rw [idsStmts_append]
    exact hs.append hs'
  · subst hr
    exact .pure ⟨.nil (Nat.le_refl _), trivial⟩

theorem declaration_succ (h : Rules P fuel) (r : Reader) (hne : r.tokens ≠ []) :
    Meets P (Parse.declaration (fuel + 1)) r (fuel + 1 < r.need 13) fun st r' =>
      r'.tokens.length < r.tokens.length ∧ BodyRead P r st.toList r' ∧ (st = none → r.errors.length < r'.errors.length) := by
  rw [Parse.declaration]
  refine (meets_recover (Q := StmtRead P r) ?_ hne).imp id fun st r' hl hq => ?_
  · refine .first (meets_accept _) fun found r₁ h₁ hf => .ite (fun ht => ?_) fun _ => ?_
    · refine (h.classDeclaration r₁).imp (need_of_read (hf ht) (by decide) · (by decide)) fun st r₂ _ ⟨hl, hs, hp⟩ => ?_
      exact ⟨Nat.lt_trans hl (hf ht), hs.widenLeft h₁.ids, hp⟩
    refine .first (meets_read _) fun found r₂ _ hr => ?_
    obtain ⟨rfl, -⟩ := hr
    refine .ite (fun _ => ?_) fun _ => ?_
    · refine .first (Q := fun _ _ => True) (.of_done rfl (.skip r₂) trivial) fun _ r₃ h₃ _ => ?_
      refine .first (meets_expectName _) fun name r₄ h₄ ⟨hl₄, hn⟩ => ?_
      refine .first (meets_expectMark _ _) fun _ r₅ h₅ _ => ?_
      have h₀ := (h₁.trans h₃).trans (h₄.trans h₅)
      have hlt : r₅.tokens.length < r.tokens.length :=
        Nat.lt_of_le_of_lt h₅.length_le (Nat.lt_of_lt_of_le hl₄ (h₁.trans h₃).length_le)
      refine (meets_parameters fuel r₅).bind (need_of_read hlt (by decide) · (by decide)) fun params r₆ h₆ ⟨hl₆, hps⟩ => ?_
      have hlt := Nat.lt_trans hl₆ hlt
      refine (h.routineBody true r₆).bind (need_of_read hlt (by decide) · (by decide)) fun body r₇ _ ⟨hl₇, hs, hp⟩ => ?_
      exact .pure ⟨Nat.lt_trans hl₇ hlt, hs.widenLeft (h₀.trans h₆).ids, hn, hps, hp⟩
    · refine .first (meets_accept _) fun found r₃ h₃ hf => .ite (fun ht => ?_) fun _ => ?_
      · have hlt : r₃.tokens.length < r.tokens.length := Nat.lt_of_lt_of_le (hf ht) h₁.length_le
        refine (h.varDeclaration r₃).imp (need_of_read hlt (by decide) · (by decide)) fun st r₄ _ ⟨hl, hs, hp⟩ => ?_
        exact ⟨Nat.lt_trans hl hlt, hs.widenLeft (h₁.trans h₃).ids, hp⟩
      · have h₀ := h₁.trans h₃
        refine (h.statement r₃).imp (need_of_lower h₀.length_le (by decide)) fun st r₄ _ ⟨⟨hl, hs, hp⟩, _⟩ => ?_
        exact ⟨Nat.lt_of_lt_of_le hl h₀.length_le, hs.widenLeft h₀.ids, hp⟩
  · cases st with
    | none => exact ⟨hq.1, ⟨.nil hl.ids, trivial⟩, fun _ => hq.2⟩
    | some st => exact ⟨hq.1, ⟨by simpa [idsStmts] using hq.2.1, hq.2.2, trivial⟩, nofun⟩

theorem classDeclaration_succ (h : Rules P fuel) (r : Reader) :
    Meets P (Parse.classDeclaration (fuel + 1)) r (fuel + 1 < r.need 1) (StmtRead P r) := by
  rw [Parse.classDeclaration]
  refine .first (meets_expectName _) fun name r₁ h₁ ⟨hl₁, hn⟩ => ?_
  refine .first meets_superclass fun superclass r₂ h₂ ⟨hi, hsup⟩ => ?_
  refine .first (meets_expectMark _ _) fun _ r₃ h₃ _ => ?_
  have hlt : r₃.tokens.length < r.tokens.length := Nat.lt_of_le_of_lt (h₂.trans h₃).length_le hl₁
  refine (h.members r₃).bind (need_of_read hlt (by decide) · (by decide)) ?_
  rintro ⟨methods, statics⟩ r₄ h₄ ⟨hs, hm, hst⟩
  refine .first (meets_expectMark _ _) fun _ r₅ h₅ _ => .pure ⟨?_, ?_, hn, fun ref hr => ⟨hsup ref hr, trivial⟩, hm, hst⟩
  · exact Nat.lt_of_le_of_lt (h₄.trans h₅).length_le hlt
  · rw [Stmt.ids, List.append_assoc]
    exact (((hi.widenLeft h₁.ids).widen h₃.ids).append hs).widen h₅.ids

theorem members_succ (h : Rules P fuel) (r : Reader) :
    Meets P (Parse.members (fuel + 1)) r (fuel + 1 < r.need 2) (MembersRead P r) := by
  rw [Parse.members]
  refine .first (meets_before _) fun found r₁ h₁ _ => .ite (fun _ => ?_) fun _ => .pure ⟨.nil h₁.ids, trivial, trivial⟩
  refine .first (meets_accept _) fun isStatic r₂ h₂ _ => ?_
  have h₀ := h₁.trans h₂
  refine (h.method r₂).bind (need_of_lower h₀.length_le (by decide)) fun m r₃ _ ⟨hl, hs, hp⟩ => ?_
  have hlt := Nat.lt_of_lt_of_le hl h₀.length_le
  refine (h.members r₃).bind (need_of_read hlt (by decide) · (by decide)) ?_
  rintro ⟨methods, statics⟩ r₄ _ ⟨hms, hpm, hps⟩
  have hall := (hs.widenLeft h₀.ids).append hms
  cases isStatic with
  | true => exact .pure ⟨by simpa [idsMethods] using hall, hpm, hp, hps⟩
  | false =>
    refine .pure ⟨hall.perm ?_, ⟨hp, hpm⟩, hps⟩
    exact List.perm_append_comm_assoc ..

theorem method_succ (h : Rules P fuel) (r : Reader) :
    Meets P (Parse.method (fuel + 1)) r (fuel + 1 < r.need 1) (MethodRead P r) := by
  rw [Parse.method]
  refine .first (meets_expectName _) fun name r₁ h₁ ⟨hl₁, _⟩ => ?_
  have hps : Meets P (ifAccepted (.mark .leftParen) (parameters fuel)) r₁ (fuel + 1 < r.need 1)
      fun params _ => ∀ ps ∈ params, ∀ p ∈ ps, P p :=
    meets_ifAccepted _ fun r' h' _ => (meets_parameters fuel r').imp
      (need_of_read (Nat.lt_of_le_of_lt h'.length_le hl₁) (by decide) · (by decide)) fun _ _ _ hp => hp.2
  refine hps.bind id fun params r₂ h₂ hps => ?_
  have hlt : r₂.tokens.length < r.tokens.length := Nat.lt_of_le_of_lt h₂.length_le hl₁
  refine (h.routineBody true r₂).bind (need_of_read hlt (by decide) · (by decide)) fun body r₃ _ ⟨hl, hs, hp⟩ => ?_
  refine .pure ⟨Nat.lt_trans hl hlt, hs.widenLeft (h₁.trans h₂).ids, ?_, ?_, hp⟩
  · cases params with
    | none => exact fun _ => rfl
    | some ps => nofun
  · cases params with
    | none => nofun
    | some ps => exact hps ps rfl

/-! ## Statements -/

theorem varDeclaration_succ (h : Rules P fuel) (r : Reader) :
    Meets P (Parse.varDeclaration (fuel + 1)) r (fuel + 1 < r.need 1) (StmtRead P r) := by
  rw [Parse.varDeclaration]
  refine .first (meets_expectName _) fun name r₁ h₁ ⟨hl₁, hn⟩ => ?_
  have he : Meets P (ifAccepted (.mark .equal) (Parse.expression fuel)) r₁ (fuel + 1 < r.need 1)
      fun initializer r' => ∀ e ∈ initializer, Spans r.nextId r'.nextId e.ids ∧ e.Proper P ⊤ :=
    meets_ifAccepted _ fun r' h' _ => (h.expression r').imp
      (need_of_read (Nat.lt_of_le_of_lt h'.length_le hl₁) (by decide) · (by decide))
      fun _ _ _ ⟨_, hs, hp⟩ => ⟨hs.widenLeft (h₁.trans h').ids, hp⟩
  refine he.bind id fun initializer r₂ h₂ he => .first (meets_expectMark _ _) fun _ r₃ h₃ _ => ?_
  have hlt : r₃.tokens.length < r.tokens.length := Nat.lt_of_le_of_lt (h₂.trans h₃).length_le hl₁
  cases initializer with
  | none => exact .pure ⟨hlt, .nil ((h₁.trans h₂).trans h₃).ids, hn⟩
  | some e => exact .pure ⟨hlt, (he e rfl).1.widen h₃.ids, hn, (he e rfl).2⟩

theorem expressionStatement_succ (h : Rules P fuel) (r : Reader) :
    Meets P (Parse.expressionStatement (fuel + 1)) r (fuel + 1 < r.need 11) (InnerRead P r) := by
  rw [Parse.expressionStatement]
  refine (h.expression r).bind (need_of_lower (Nat.le_refl _) (by decide)) fun e r₁ _ ⟨hl, hs, hp⟩ => ?_
  refine .first (meets_expectMark _ _) fun _ r₂ h₂ _ => .pure ⟨⟨?_, hs.widen h₂.ids, hp⟩, rfl⟩
  exact Nat.lt_of_le_of_lt h₂.length_le hl

theorem ifStatement_succ (h : Rules P fuel) (r : Reader) :
    Meets P (Parse.ifStatement (fuel + 1)) r (fuel + 1 < r.need 1) (InnerRead P r) := by
  rw [Parse.ifStatement]
  refine .first (meets_expectMark _ _) fun _ r₁ h₁ hl₁ => ?_
  refine (h.expression r₁).bind (need_of_read hl₁ (by decide) · (by decide)) fun condition r₂ h₂ ⟨_, hc, hpc⟩ => ?_
  refine .first (meets_expectMark _ _) fun _ r₃ h₃ _ => ?_
  have hlt : r₃.tokens.length < r.tokens.length := Nat.lt_of_le_of_lt (h₂.trans h₃).length_le hl₁
  refine (h.statement r₃).bind (need_of_read hlt (by decide) · (by decide)) ?_
  intro thenBranch r₄ h₄ h
  obtain ⟨⟨hl₄, ht, hpt⟩, hdt⟩ := h
  have hct := ((hc.widenLeft h₁.ids).widen h₃.ids).append ht
  have he : Meets P (ifAccepted (.keyword .else) (Parse.statement fuel)) r₄ (fuel + 1 < r.need 1)
      fun elseBranch r' => ∀ st ∈ elseBranch, Spans r₄.nextId r'.nextId st.ids ∧ st.Proper P ⊤ ∧ st.declares = [] :=
    meets_ifAccepted _ fun r' h' _ => (h.statement r').imp
      (need_of_read (Nat.lt_of_le_of_lt (h₄.trans h').length_le hlt) (by decide) · (by decide))
      fun _ _ _ ⟨⟨_, hs, hp⟩, hd⟩ => ⟨hs.widenLeft h'.ids, hp, hd⟩
  refine he.bind id fun elseBranch r₅ h₅ he => ?_
  have hlt : r₅.tokens.length < r.tokens.length := Nat.lt_of_le_of_lt (h₄.trans h₅).length_le hlt
  cases elseBranch with
  | none => exact .pure ⟨⟨hlt, hct.widen h₅.ids, hpc, hpt, hdt⟩, hdt⟩
  | some st =>
    obtain ⟨hs, hp, hd⟩ := he st rfl
    exact .pure ⟨⟨hlt, hct.append hs, hpc, ⟨hpt, hdt⟩, hp, hd⟩, by simp [Stmt.declares, hdt, hd]⟩

theorem forInitializer_succ (h : Rules P fuel) (r : Reader) :
    Meets P (Parse.forInitializer (fuel + 1)) r (fuel + 1 < r.need 12) fun init r' => BodyRead P r init.toList r' := by
  have one : ∀ {st : Stmt} {r₁ r₂ : Reader}, r.Later r₁ → StmtRead P r₁ st r₂ → BodyRead P r (some st).toList r₂ :=
    fun hl ⟨_, hs, hp⟩ => ⟨by simpa [idsStmts] using hs.widenLeft hl.ids, hp, trivial⟩
  rw [Parse.forInitializer]
  refine .first (meets_accept _) fun _ r₁ h₁ _ => .ite (fun _ => .pure ⟨.nil h₁.ids, trivial⟩) fun _ => ?_
  refine .first (meets_accept _) fun found r₂ h₂ hf => .ite (fun ht => ?_) fun _ => ?_
  · have hlt : r₂.tokens.length < r.tokens.length := Nat.lt_of_lt_of_le (hf ht) h₁.length_le
    refine (h.varDeclaration r₂).bind (need_of_read hlt (by decide) · (by decide)) fun st r₃ _ hst => ?_
    exact .pure (one (h₁.trans h₂) hst)
  · refine (h.expressionStatement r₂).bind (need_of_lower (h₁.trans h₂).length_le (by decide)) fun st r₃ _ hst => ?_
    exact .pure (one (h₁.trans h₂) hst.1)

theorem loopClause (h : Rules P fuel) (m : Mark) (r : Reader) :
    Meets P (unlessAt m (Parse.expression fuel)) r (fuel < r.need 10) fun clause r' =>
      Spans r.nextId r'.nextId (idsExprs clause.toList) ∧ ProperExprs P ⊤ clause.toList := by
  refine (meets_unlessAt m (h.expression r)).imp id fun clause r' hl he => ?_
  cases clause with
  | none => exact ⟨.nil hl.ids, trivial⟩
  | some e =>
    obtain ⟨_, hs, hp⟩ := he e rfl
    exact ⟨by simpa [idsExprs] using hs, hp, trivial⟩

theorem forLoop_read {init : Option Stmt} {condition increment : Option Expr} {body : Stmt} {n₀ n₁ n₂ n₃ n₄ : NodeId}
    (hi : Spans n₀ n₁ (idsStmts init.toList)) (hpi : ProperStmts P ⊤ init.toList)
    (hc : Spans n₁ n₂ (idsExprs condition.toList)) (hpc : ProperExprs P ⊤ condition.toList)
    (hn : Spans n₂ n₃ (idsExprs increment.toList)) (hpn : ProperExprs P ⊤ increment.toList)
    (hb : Spans n₃ n₄ body.ids) (hpb : body.Proper P ⊤) (hd : body.declares = []) :
    Spans n₀ n₄ (forLoop init condition increment body).ids ∧ (forLoop init condition increment body).Proper P ⊤ ∧
      (forLoop init condition increment body).declares = [] := by
  have hinner : Spans n₂ n₄ (bodyThen body increment).ids ∧ (bodyThen body increment).Proper P ⊤ ∧
      (bodyThen body increment).declares = [] := by
    cases increment with
    | none => exact ⟨hb.widenLeft hn.le, hpb, hd⟩
    | some e =>
      refine ⟨?_, ⟨hpb, hpn.1, trivial⟩, rfl⟩
      simpa [bodyThen, Stmt.ids, idsStmts, idsExprs] using (hn.append hb).perm List.perm_append_comm
  have hcond : Spans n₁ n₂ (condition.getD (.literal (.bool true))).ids ∧
      (condition.getD (.literal (.bool true))).Proper P ⊤ := by
    cases condition with
    | none => exact ⟨.nil hc.le, trivial⟩
    | some e => exact ⟨by simpa [idsExprs] using hc, hpc.1⟩
  have hloop := hcond.1.append hinner.1
  cases init with
  | none => exact ⟨hloop.widenLeft hi.le, ⟨hcond.2, hinner.2⟩, hinner.2.2⟩
  | some first =>
    refine ⟨?_, ⟨hpi.1, ⟨hcond.2, hinner.2⟩, trivial⟩, rfl⟩
    simpa [forLoop, Stmt.ids, idsStmts] using hi.append hloop

theorem forStatement_succ (h : Rules P fuel) (r : Reader) :
    Meets P (Parse.forStatement (fuel + 1)) r (fuel + 1 < r.need 1) (InnerRead P r) := by
  rw [Parse.forStatement]
  refine .first (meets_expectMark _ _) fun _ r₁ h₁ hl₁ => ?_
  refine (h.forInitializer r₁).bind (need_of_read hl₁ (by decide) · (by decide)) fun init r₂ h₂ ⟨hi, hpi⟩ => ?_
  have hlt : r₂.tokens.length < r.tokens.length := Nat.lt_of_le_of_lt h₂.length_le hl₁
  refine (h.loopClause .semicolon r₂).bind (need_of_read hlt (by decide) · (by decide)) fun condition r₃ h₃ ⟨hc, hpc⟩ => ?_
  refine .first (meets_expectMark _ _) fun _ r₄ h₄ _ => ?_
  have hlt : r₄.tokens.length < r.tokens.length := Nat.lt_of_le_of_lt (h₃.trans h₄).length_le hlt
  refine (h.loopClause .rightParen r₄).bind (need_of_read hlt (by decide) · (by decide)) fun increment r₅ h₅ ⟨hn, hpn⟩ => ?_
  refine .first (meets_expectMark _ _) fun _ r₆ h₆ _ => ?_
  have hlt : r₆.tokens.length < r.tokens.length := Nat.lt_of_le_of_lt (h₅.trans h₆).length_le hlt
  refine (h.statement r₆).bind (need_of_read hlt (by decide) · (by decide)) ?_
  intro body r₇ h₇ h
  obtain ⟨⟨hl₇, hb, hpb⟩, hd⟩ := h
  obtain ⟨hs, hp, hd⟩ := forLoop_read (hi.widenLeft h₁.ids) hpi (hc.widen h₄.ids) hpc (hn.widen h₆.ids) hpn hb hpb hd
  exact .pure ⟨⟨Nat.lt_trans hl₇ hlt, hs, hp⟩, hd⟩

/-- A statement that starts with a word and ends with a part read after it. -/
theorem InnerRead.after {r r₁ r₂ : Reader} {st : Stmt} (hl : r.Later r₁) (h : InnerRead P r₁ st r₂) : InnerRead P r st r₂ :=
  ⟨⟨Nat.lt_of_lt_of_le h.1.1 hl.length_le, h.1.2.1.widenLeft hl.ids, h.1.2.2⟩, h.2⟩

theorem statement_succ (h : Rules P fuel) (r : Reader) :
    Meets P (Parse.statement (fuel + 1)) r (fuel + 1 < r.need 12) (InnerRead P r) := by
  rw [Parse.statement]
  refine .first meets_line fun line r₀ _ h₀ => ?_
  obtain ⟨rfl, -⟩ := h₀
  refine .first (meets_accept _) fun _ r₁ h₁ hf => .ite (fun ht => ?_) fun _ => ?_
  · refine (h.forStatement r₁).imp (need_of_read (hf ht) (by decide) · (by decide)) fun _ _ _ hst => InnerRead.after h₁ hst
  refine .first (meets_accept _) fun _ r₂ h₂ hf => .ite (fun ht => ?_) fun _ => ?_
  · have hlt : r₂.tokens.length < r₀.tokens.length := Nat.lt_of_lt_of_le (hf ht) h₁.length_le
    refine (h.ifStatement r₂).imp (need_of_read hlt (by decide) · (by decide)) fun _ _ _ hst => InnerRead.after (h₁.trans h₂) hst
  have h₂ := h₁.trans h₂
  refine .first (meets_accept _) fun _ r₃ h₃ hf => .ite (fun ht => ?_) fun _ => ?_
  · refine .first (meets_expectMark _ _) fun _ r₄ h₄ hl₄ => ?_
    have h₄ := (h₂.trans h₃).trans h₄
    have hlt : r₄.tokens.length < r₀.tokens.length := Nat.lt_of_lt_of_le hl₄ (h₂.trans h₃).length_le
    refine (h.expression r₄).bind (need_of_read hlt (by decide) · (by decide)) fun condition r₅ h₅ ⟨_, hc, hpc⟩ => ?_
    refine .first (meets_expectMark _ _) fun _ r₆ h₆ _ => ?_
    have hlt : r₆.tokens.length < r₀.tokens.length := Nat.lt_of_le_of_lt (h₅.trans h₆).length_le hlt
    refine (h.statement r₆).bind (need_of_read hlt (by decide) · (by decide)) fun body r₇ _ ⟨⟨hl, hb, hpb⟩, hd⟩ => ?_
    exact .pure ⟨⟨Nat.lt_trans hl hlt, ((hc.widenLeft h₄.ids).widen h₆.ids).append hb, hpc, hpb, hd⟩, hd⟩
  have h₃ := h₂.trans h₃
  refine .first (meets_accept _) fun _ r₄ h₄ hf => .ite (fun ht => ?_) fun _ => ?_
  · have hlt : r₄.tokens.length < r₀.tokens.length := Nat.lt_of_lt_of_le (hf ht) h₃.length_le
    refine (h.loopClause .semicolon r₄).bind (need_of_read hlt (by decide) · (by decide)) fun value r₅ h₅ ⟨hs, hp⟩ => ?_
    refine .first (meets_expectMark _ _) fun _ r₆ h₆ _ => .pure ?_
    have hlt : r₆.tokens.length < r₀.tokens.length := Nat.lt_of_le_of_lt (h₅.trans h₆).length_le hlt
    have hs := (hs.widenLeft (h₃.trans h₄).ids).widen h₆.ids
    cases value with
    | none => exact ⟨⟨hlt, hs, trivial⟩, rfl⟩
    | some e => exact ⟨⟨hlt, by simpa [idsExprs, Stmt.ids] using hs, hp.1⟩, rfl⟩
  have h₄ := h₃.trans h₄
  refine .first (meets_accept _) fun _ r₅ h₅ hf => .ite (fun ht => ?_) fun _ => ?_
  · refine .first (meets_expectMark _ _) fun _ r₆ h₆ hl => .pure ⟨⟨?_, ?_, trivial⟩, rfl⟩
    · exact Nat.lt_of_lt_of_le hl (h₄.trans h₅).length_le
    · exact .nil ((h₄.trans h₅).trans h₆).ids
  have h₅ := h₄.trans h₅
  refine .first (meets_accept _) fun _ r₆ h₆ hf => .ite (fun ht => ?_) fun _ => ?_
  · have hlt : r₆.tokens.length < r₀.tokens.length := Nat.lt_of_lt_of_le (hf ht) h₅.length_le
    refine (h.block r₆).bind (need_of_read hlt (by decide) · (by decide)) fun body r₇ h₇ ⟨hs, hp⟩ => ?_
    exact .pure ⟨⟨Nat.lt_of_le_of_lt h₇.length_le hlt, hs.widenLeft (h₅.trans h₆).ids, hp⟩, rfl⟩
  have h₆ := h₅.trans h₆
  refine .first (meets_accept _) fun _ r₇ h₇ hf => .ite (fun ht => ?_) fun _ => ?_
  · have hlt : r₇.tokens.length < r₀.tokens.length := Nat.lt_of_lt_of_le (hf ht) h₆.length_le
    refine (h.expression r₇).bind (need_of_read hlt (by decide) · (by decide)) fun value r₈ h₈ ⟨hl, hs, hp⟩ => ?_
    refine .first (meets_expectMark _ _) fun _ r₉ h₉ _ => .pure ⟨⟨?_, ?_, hp⟩, rfl⟩
    · exact Nat.lt_of_le_of_lt h₉.length_le (Nat.lt_trans hl hlt)
    · exact (hs.widenLeft (h₆.trans h₇).ids).widen h₉.ids
  have h₇ := h₆.trans h₇
  exact (h.expressionStatement r₇).imp (need_of_lower h₇.length_le (by decide)) fun _ _ _ hst => InnerRead.after h₇ hst

end Rules

theorem rules (P : Name → Prop) : ∀ fuel, Rules P fuel
  | 0 => .zero
  | fuel + 1 =>
    have h := rules P fuel
    { expression := h.expression_succ
      operand := h.operand_succ
      operatorChain := h.operatorChain_succ
      unary := h.unary_succ
      suffixes := h.suffixes_succ
      argumentList := h.argumentList_succ
      primary := h.primary_succ
      routineBody := h.routineBody_succ
      block := h.block_succ
      declarations := h.declarations_succ
      declaration := h.declaration_succ
      classDeclaration := h.classDeclaration_succ
      members := h.members_succ
      method := h.method_succ
      varDeclaration := h.varDeclaration_succ
      statement := h.statement_succ
      expressionStatement := h.expressionStatement_succ
      ifStatement := h.ifStatement_succ
      forStatement := h.forStatement_succ
      forInitializer := h.forInitializer_succ }

/-! ## Programs -/

theorem meets_program {P : Name → Prop} : ∀ (fuel : Nat) (r : Reader),
    Meets P (program fuel) r (fuel < r.need 14) (BodyRead P r)
  | 0, _ => .exhausted (Nat.lt_of_lt_of_le (by decide : 0 < 14) (Nat.le_add_left ..))
  | fuel + 1, r => by
    rw [program]
    refine .first meets_kind fun kind r' _ hk => ?_
    obtain ⟨rfl, hk⟩ := hk
    split
    · exact .pure ⟨.nil (Nat.le_refl _), trivial⟩
    · have hne : r'.tokens ≠ [] := fun ht => by simp [Reader.kind?, ht] at hk
      refine ((rules P fuel).declaration r' hne).bind (need_of_lower (Nat.le_refl _) (by decide)) ?_
      intro first r₁ _ h
      obtain ⟨hlt, ⟨hs, hp⟩, -⟩ := h
      refine (meets_program fuel r₁).bind (need_of_read hlt (by decide) · (by decide)) ?_
      intro rest r₂ _ h
      obtain ⟨hs', hp'⟩ := h
      refine .pure ?_
      refine ⟨?_, (properStmts_append _ _).mpr ⟨hp, hp'⟩⟩
      rw [idsStmts_append]
      exact hs.append hs'

theorem program_has_fuel (tokens : List Token) (nextId : NodeId) :
    program (grammarFuel tokens) (ofTokens tokens nextId) ≠ .exhausted := by
  intro h
  have hm := meets_program (P := fun _ => True) (grammarFuel tokens) (ofTokens tokens nextId) fun _ _ _ _ => trivial
  rw [h] at hm
  have hlen : (ofTokens tokens nextId).tokens.length ≤ tokens.length := (List.takeWhile_prefix _).length_le
  simp only [grammarFuel, need, rulesPerToken] at hm
  omega

theorem program_of_parsed {tokens : List Token} {nextId : NodeId} (h : (parseProgram tokens nextId).errors = []) :
    ∃ r, program (grammarFuel tokens) (ofTokens tokens nextId) = .done (parseProgram tokens nextId).tree r ∧
      r.errors = [] ∧ r.nextId = (parseProgram tokens nextId).nextId := by
  unfold parseProgram at h ⊢
  cases hr : program (grammarFuel tokens) (ofTokens tokens nextId) with
  | done tree r => rw [hr] at h; exact ⟨r, rfl, h, rfl⟩
  | failed e r => rw [hr] at h; simp at h
  | exhausted => exact absurd hr (program_has_fuel tokens nextId)

end Parse

/-- The tree of a program has new identities, each of them once, and is proper. -/
theorem parseProgram_read {P : Name → Prop} {tokens : List Token}
    (hP : ∀ t ∈ tokens, ∀ text, t.kind = .identifier text → P { text, line := t.line }) (nextId : NodeId) :
    Spans nextId (parseProgram tokens nextId).nextId (idsStmts (parseProgram tokens nextId).tree) ∧
      ProperStmts P ⊤ (parseProgram tokens nextId).tree := by
  have hn : (Reader.ofTokens tokens nextId).Names P := fun t ht => hP t ((List.takeWhile_prefix _).subset ht)
  have h := Parse.meets_program (grammarFuel tokens) (Reader.ofTokens tokens nextId) hn
  unfold parseProgram
  cases hr : Parse.program (grammarFuel tokens) (Reader.ofTokens tokens nextId) with
  | done tree r => rw [hr] at h; exact h.2
  | failed e r => rw [hr] at h; exact ⟨.nil h.ids, trivial⟩
  | exhausted => exact ⟨.nil (Nat.le_refl _), trivial⟩

end Lox
