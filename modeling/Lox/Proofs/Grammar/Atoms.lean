import Lox.Proofs.Grammar.Reading

/-!
# The rules that read a few tokens

What the rules promise that call no other rule of the grammar: the marks and names of a construct,
identities, and copies of assignment targets.
-/

namespace Lox

namespace Parse

open Reader

section
variable {P : Name → Prop} {α : Type} {r : Reader}

/-! ## Single tokens -/

theorem meets_read (f : Reader → α) : Meets P (Run.read f) r False fun a r' => r' = r ∧ a = f r :=
  .of_done rfl (.refl r) ⟨rfl, rfl⟩

theorem meets_kind : Meets P kind? r False fun kind r' => r' = r ∧ kind = r.kind? := meets_read _

theorem meets_line : Meets P line r False fun n r' => r' = r ∧ n = r.line := meets_read _

theorem meets_skip {kind : Token.Kind} (h : r.kind? = some kind) :
    Meets P skip r False fun _ r' => r'.tokens.length < r.tokens.length :=
  .of_done rfl (.skip r) (skip_length h)

theorem meets_fail {dry : Prop} {Q : α → Reader → Prop} (fault : SyntaxFault) : Meets P (fail fault) r dry Q :=
  .of_failed rfl (.refl r)

theorem meets_report (fault : SyntaxFault) : Meets P (report fault) r False fun _ _ => True :=
  .of_done rfl (.report r _) trivial

theorem meets_reportAt (site : Site) (fault : SyntaxFault) :
    Meets P (reportAt site fault) r False fun _ r' => r'.nextId = r.nextId :=
  .of_done rfl (.report r _) rfl

theorem meets_accept (kind : Token.Kind) :
    Meets P (accept kind) r False fun found r' => found = true → r'.tokens.length < r.tokens.length := by
  by_cases h : r.kind? = some kind
  · exact .of_done (if_pos h) (.skip r) fun _ => skip_length h
  · exact .of_done (if_neg h) (.refl r) nofun

theorem meets_before (m : Mark) : Meets P (before m) r False fun found r' => r' = r ∧ (found = true → r.tokens ≠ []) := by
  refine .first meets_kind ?_
  intro kind r' _ h
  obtain ⟨rfl, rfl⟩ := h
  refine .pure ⟨rfl, fun h ht => ?_⟩
  simp [Reader.kind?, ht] at h

theorem meets_expectMark (m : Mark) (place : Place) :
    Meets P (expectMark m place) r False fun _ r' => r'.tokens.length < r.tokens.length := by
  by_cases h : r.kind? = some (.mark m)
  · exact .of_done (if_pos h) (.skip r) (skip_length h)
  · exact .of_failed (if_neg h) (.refl r)

theorem meets_expectName (fault : SyntaxFault) :
    Meets P (expectName fault) r False fun name r' => r'.tokens.length < r.tokens.length ∧ P name := by
  by_cases h : ∃ text, r.kind? = some (.identifier text)
  · obtain ⟨text, h⟩ := h
    refine .intro fun hp => .of_done (a := { text, line := r.line }) ?_ (.skip r) ⟨skip_length h, hp.head h⟩
    simp [expectName, h]
  · refine .of_failed (e := .syntactic r.site fault) ?_ (.refl r)
    unfold expectName
    split
    · rename_i text hk; exact absurd ⟨text, hk⟩ h
    · rfl

theorem meets_freshId : Meets P freshId r False fun id r' => Spans r.nextId r'.nextId [id] :=
  .of_done rfl ⟨List.suffix_rfl, rfl, Nat.le_succ _, List.prefix_rfl⟩ (.single _)

theorem meets_reread (e : Expr) :
    Meets P (reread e) r False fun e' r' => Spans r.nextId r'.nextId e'.ids ∧ (e.Proper P ⊤ → e'.Proper P ⊤) :=
  .of_done rfl ⟨List.suffix_rfl, rfl, (e.fresh_spans _).le, List.prefix_rfl⟩
    ⟨e.fresh_spans _, fun h => h.fresh _⟩

/-! ## Optional parts -/

theorem meets_unlessAt {rule : Parse α} {dry : Prop} {Q : α → Reader → Prop} (m : Mark) (h : Meets P rule r dry Q) :
    Meets P (unlessAt m rule) r dry fun a r' => ∀ b ∈ a, Q b r' := by
  refine .first (Q := fun _ r' => r' = r) (.of_done rfl (.refl r) rfl) ?_
  rintro found r' _ rfl
  refine .ite (fun _ => .pure nofun) fun _ => h.bind id fun a r'' _ hq => .pure ?_
  intro _ h
  cases h
  exact hq

theorem meets_ifAccepted {rule : Parse α} {dry : Prop} {Q : α → Reader → Prop} (kind : Token.Kind)
    (h : ∀ r', r.Later r' → r'.tokens.length < r.tokens.length → Meets P rule r' dry Q) :
    Meets P (ifAccepted kind rule) r dry fun a r' => ∀ b ∈ a, Q b r' := by
  refine .first (meets_accept kind) fun found r' hl hf => ?_
  refine .ite (fun ht => (h r' hl (hf ht)).bind id fun a r'' _ hq => .pure ?_) fun _ => .pure nofun
  intro _ h
  cases h
  exact hq

theorem meets_checkCount (count : Nat) (fault : SyntaxFault) : Meets P (checkCount count fault) r False fun _ _ => True :=
  .ite (fun _ => meets_report fault) fun _ => .pure trivial

theorem meets_endBody (closed : Bool) : Meets P (endBody closed) r False fun _ _ => True :=
  .ite (fun _ => .first (meets_expectMark _ _) fun _ _ _ _ => .pure trivial) fun _ => .pure trivial

end

end Parse

end Lox
