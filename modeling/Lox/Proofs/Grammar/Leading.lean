import Lox.Proofs.Grammar.Overlooking
import Lox.Proofs.Grammar.Range
import Lox.Proofs.Grammar.Shifted

/-!
# Programs that start with a declaration

What is left after the first declaration of a program is read as if it stood alone, whatever errors there were before. Where
the declaration does not depend on what comes after its tokens, it is read as if it stood alone as well.
-/

namespace Lox

/-! ## Programs -/

namespace Parse

open Reader

theorem program_at_end {fuel : Nat} {r : Reader} (ht : r.tokens = []) : program (fuel + 1) r = .done [] r := by
  have hk : r.kind? = none := by simp [Reader.kind?, ht]
  rw [program, Run.bind_apply]
  simp only [kind?, Run.read, hk]
  rfl

theorem program_of_declaration {fuel : Nat} {r r₁ r₂ : Reader} {first : Option Stmt} {rest : List Stmt} (ha : r.Ahead)
    (hd : declaration fuel r = .done first r₁) (hp : program fuel r₁ = .done rest r₂) :
    program (fuel + 1) r = .done (first.toList ++ rest) r₂ := by
  obtain ⟨t, ts, ht⟩ := List.exists_cons_of_ne_nil ha
  have hk : r.kind? = some t.kind := by simp [Reader.kind?, ht]
  rw [program, Run.bind_apply]
  simp only [kind?, Run.read, hk]
  rw [Run.bind_of_done hd, Run.bind_of_done hp]
  rfl

theorem program_done (tokens : List Token) (nextId : NodeId) {fuel : Nat} (h : grammarFuel tokens ≤ fuel) :
    ∃ tree r, program fuel (ofTokens tokens nextId) = .done tree r := by
  obtain ⟨hne, hsame⟩ := ParseTask.program.ends_first tokens nextId (by decide)
  have hsame : program fuel (ofTokens tokens nextId) = program (grammarFuel tokens) (ofTokens tokens nextId) := hsame fuel h
  rw [hsame]
  cases ho : program (grammarFuel tokens) (ofTokens tokens nextId) with
  | exhausted => exact absurd ho hne
  | failed e r => exact absurd ho (Recovers.program _ _ e r)
  | done tree r => exact ⟨tree, r, rfl⟩

/-- With any fuel that is enough, the tree is what the tokens are read as. -/
theorem parseProgram_of_done {tokens : List Token} {nextId : NodeId} {fuel : Nat} {tree : List Stmt} {r : Reader}
    (h : program fuel (ofTokens tokens nextId) = .done tree r) : parseProgram tokens nextId = ⟨tree, r.errors, r.nextId⟩ := by
  obtain ⟨tree', r', h'⟩ := program_done tokens nextId (le_refl (grammarFuel tokens))
  have hlarge := steady_program (le_max_left fuel (grammarFuel tokens)) _ (by rw [h]; nofun)
  have hlarge' := steady_program (le_max_right fuel (grammarFuel tokens)) _ (by rw [h']; nofun)
  rw [parseProgram, ← hlarge', hlarge, h]

/-- What is left after a declaration is read as if it stood alone, but for the identities. -/
theorem parseProgram_of_declaration {tokens rest : List Token} {nextId : NodeId} {fuel : Nat} {first : Option Stmt}
    {r₁ : Reader} (ha : (ofTokens tokens nextId).Ahead) (hd : declaration fuel (ofTokens tokens nextId) = .done first r₁)
    (hfuel : grammarFuel rest ≤ fuel) (ht : r₁.tokens = (ofTokens rest 0).tokens)
    (hl : r₁.Ahead → r₁.endLine = (ofTokens rest 0).endLine) :
    parseProgram tokens nextId =
      { tree := first.toList ++ recodedStmts (.shift r₁.nextId) (parseProgram rest 0).tree
        errors := r₁.errors ++ (parseProgram rest 0).errors
        nextId := (parseProgram rest 0).nextId + r₁.nextId } := by
  let y : Sequel := ⟨[], r₁.endLine, r₁.errors⟩
  let q := ofTokens rest r₁.nextId
  have hy : y.reader q = r₁ := by
    have hq : q.tokens = r₁.tokens := ht.symm
    have he : q.errors = [] := rfl
    have hn : q.nextId = r₁.nextId := rfl
    simp [Sequel.reader, hq, he, hn, y]
  obtain ⟨tree, q', hq⟩ := program_done rest r₁.nextId hfuel
  have hrest : program fuel r₁ = .done tree (y.reader q') := by
    rw [← hy]
    by_cases hr : r₁.Ahead
    · obtain ⟨hlater, h⟩ := (overlooks_program y fuel q).done (.inl rfl) hq
      exact (h (.inr ⟨rfl, (hl hr).trans hlater.endLine.symm⟩)).1
    · have hempty : q.tokens = [] := ht.symm.trans (not_not.mp hr)
      cases fuel with
      | zero => cases hq
      | succ fuel =>
        rw [program_at_end hempty] at hq
        cases hq
        exact program_at_end (by rw [hy]; exact not_not.mp hr)
  have hparse := parseProgram_of_done hq
  have hshift := parseProgram_shifted rest 0 r₁.nextId
  rw [Nat.zero_add, hparse] at hshift
  obtain ⟨htree, herrors, hid⟩ := Parsed.mk.inj hshift
  rw [parseProgram_of_done (program_of_declaration ha hd hrest), htree, ← herrors, ← hid]
  rfl

end Parse

/-! ## Texts that start with another one -/

namespace Reader

variable {s rest : List Token}

theorem ofTokens_tokens_of_notEof (hs : ∀ t ∈ s, t.kind ≠ .eof) (nextId : NodeId) : (ofTokens s nextId).tokens = s :=
  List.takeWhile_eq_self_iff.mpr (by simpa using hs)

theorem ofTokens_eq (hs : ∀ t ∈ s, t.kind ≠ .eof) (nextId : NodeId) :
    ofTokens s nextId = ⟨s, (ofTokens s nextId).endLine, nextId, []⟩ :=
  congrArg (Reader.mk · _ _ _) (ofTokens_tokens_of_notEof hs nextId)

theorem ofTokens_append_tokens (hs : ∀ t ∈ s, t.kind ≠ .eof) (nextId : NodeId) :
    (ofTokens (s ++ rest) nextId).tokens = s ++ (ofTokens rest 0).tokens :=
  List.takeWhile_append_of_pos (by simpa using hs)

/-- Where tokens are left, the input ends with them. -/
theorem ofTokens_append_endLine (hs : ∀ t ∈ s, t.kind ≠ .eof) (hrest : (ofTokens rest 0).tokens ≠ []) (nextId : NodeId) :
    (ofTokens (s ++ rest) nextId).endLine = (ofTokens rest 0).endLine := by
  have hne : rest ≠ [] := by
    rintro rfl
    exact hrest rfl
  have hfind : (s ++ rest).find? (·.kind = .eof) = rest.find? (·.kind = .eof) := by
    rw [List.find?_append, List.find?_eq_none.mpr (by simpa using hs), Option.none_or]
  simp only [ofTokens, hfind, List.getLast?_append_of_ne_nil s hne]

/-- The tokens of a larger text, as one text that is followed by another. -/
theorem ofTokens_append (hs : ∀ t ∈ s, t.kind ≠ .eof) (nextId : NodeId) : ofTokens (s ++ rest) nextId =
    Sequel.reader ⟨(ofTokens rest 0).tokens, (ofTokens (s ++ rest) nextId).endLine, []⟩ (ofTokens s nextId) := by
  rw [Sequel.reader, ofTokens_tokens_of_notEof hs, ← ofTokens_append_tokens hs nextId]
  rfl

end Reader

/-! ## Programs that start with one declaration -/

section
variable {s : List Token} {nextId : NodeId} {fuel : Nat} {first : Option Stmt} {r₁ : Reader}

open Parse Reader

/-- What a declaration leaves of its tokens is read with what comes after them, as if it stood alone. -/
theorem parseProgram_append (hs : ∀ t ∈ s, t.kind ≠ .eof) (hne : s ≠ [])
    (hd : ∀ x : Sequel, declaration fuel (x.reader (ofTokens s nextId)) = .done first (x.reader r₁)) (rest : List Token) :
    parseProgram (s ++ rest) nextId =
      { tree := first.toList ++ recodedStmts (.shift r₁.nextId) (parseProgram (r₁.tokens ++ rest) 0).tree
        errors := r₁.errors ++ (parseProgram (r₁.tokens ++ rest) 0).errors
        nextId := (parseProgram (r₁.tokens ++ rest) 0).nextId + r₁.nextId } := by
  let x : Sequel := ⟨(ofTokens rest 0).tokens, (ofTokens (s ++ rest) nextId).endLine, []⟩
  have hx : ofTokens (s ++ rest) nextId = x.reader (ofTokens s nextId) := ofTokens_append hs nextId
  have hdone : declaration (max fuel (grammarFuel (r₁.tokens ++ rest))) (ofTokens (s ++ rest) nextId) =
      .done first (x.reader r₁) := by
    have hd := hd x
    rw [← hx] at hd
    rw [← hd]
    exact (steadies (le_max_left fuel _)).declaration _ (by rw [hd]; nofun)
  -- with nothing after them the same tokens are left
  obtain ⟨read, hread⟩ : r₁.tokens <:+ s := by
    let alone : Sequel := ⟨[], 0, []⟩
    have hends : (ParseTask.declaration.run fuel (alone.reader (ofTokens s nextId))).EndsIn (alone.reader r₁) := by
      rw [show ParseTask.declaration.run fuel _ = _ from hd alone]
      rfl
    have hlater := ParseTask.declaration.later hends
    simpa [alone, Sequel.reader, ofTokens_tokens_of_notEof hs] using hlater.tokens
  have hleft : ∀ t ∈ r₁.tokens, t.kind ≠ .eof := fun t ht => hs t (hread ▸ List.mem_append_right read ht)
  have htokens : (x.reader r₁).tokens = (ofTokens (r₁.tokens ++ rest) 0).tokens := (ofTokens_append_tokens hleft 0).symm
  refine (parseProgram_of_declaration ?_ hdone (le_max_right _ _) htokens fun ha => ?_).trans rfl
  · rw [Reader.Ahead, ofTokens_append_tokens hs]
    exact List.append_ne_nil_of_left_ne_nil hne _
  · have hbefore : ∀ t ∈ read, t.kind ≠ .eof := fun t ht => hs t (hread ▸ List.mem_append_left _ ht)
    have hline := ofTokens_append_endLine hbefore (ne_of_eq_of_ne htokens.symm ha) nextId
    rwa [← List.append_assoc, hread] at hline

/-- A declaration that is read up to the last token, whatever comes after it, is read as if it stood alone. -/
theorem parseProgram_of_first (hs : ∀ t ∈ s, t.kind ≠ .eof) (hne : s ≠ [])
    (hd : ∀ x : Sequel, declaration fuel (x.reader (ofTokens s nextId)) = .done first (x.reader r₁)) (ht : r₁.tokens = []) :
    parseProgram s nextId = ⟨first.toList, r₁.errors, r₁.nextId⟩ := by
  have h := parseProgram_append hs hne hd []
  rw [List.append_nil, ht] at h
  have hempty : program 1 (ofTokens [] 0) = .done [] (ofTokens [] 0) := program_at_end rfl
  rw [h, List.append_nil, parseProgram_of_done hempty]
  simp [ofTokens, recodedStmts]

end

end Lox
