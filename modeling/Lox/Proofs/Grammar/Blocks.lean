import Lox.Proofs.Grammar.Simple

/-!
# Errors in blocks

Where a block ends depends on the tokens in it only, and what is behind its end is read as if it stood alone. Recovery does not
look for braces: an error that has no semicolon behind it in its block can take the closing brace with it.
-/

namespace Lox

open Parse Reader

/-! ## The end of a block -/

/-- What is left of the tokens behind a block that starts with them, behind its opening brace. -/
def leftOfBlock (tokens : List Token) : Option (List Token) :=
  match block (grammarFuel tokens) (ofTokens tokens 0) with
  | .done _ r => some r.tokens
  | _ => none

namespace Parse

variable {r r₁ r₂ : Reader} {fuel : Nat}

theorem before_apply (m : Mark) (r : Reader) : before m r = .done (r.kind?.isSome && r.kind? ≠ some (.mark m)) r := rfl

theorem declarations_stop (h : r.kind? = none ∨ r.kind? = some (.mark .rightBrace)) (fuel : Nat) :
    declarations (fuel + 1) r = .done [] r := by
  have hb : before .rightBrace r = .done false r := by
    rw [before_apply]
    obtain h | h := h <;> simp [h]
  rw [declarations, Run.bind_of_done hb]
  rfl

theorem declarations_go {kind : Token.Kind} (hk : r.kind? = some kind) (hne : kind ≠ .mark .rightBrace) (fuel : Nat) :
    declarations (fuel + 1) r = (do return (← declaration fuel).toList ++ (← declarations fuel) : Parse (List Stmt)) r := by
  rw [declarations, Run.bind_of_done (show before .rightBrace r = .done true r by simp [before_apply, hk, hne])]
  rfl

/-- Declarations are read up to a closing brace or the end, and do not fail. -/
theorem declarations_ends : ∀ {fuel : Nat} {r r' : Reader}, (declarations fuel r).EndsIn r' →
    (r'.kind? = none ∨ r'.kind? = some (.mark .rightBrace)) ∧ ∃ body, declarations fuel r = .done body r'
  | 0, _, _, h => h.elim
  | fuel + 1, r, r', h => by
    by_cases hk : r.kind? = none ∨ r.kind? = some (.mark .rightBrace)
    · rw [declarations_stop hk] at h ⊢
      obtain rfl : r' = r := h
      exact ⟨hk, [], rfl⟩
    · rw [not_or] at hk
      obtain ⟨kind, hkind⟩ := Option.ne_none_iff_exists'.mp hk.1
      rw [declarations_go hkind (by simpa [hkind] using hk.2)] at h ⊢
      rw [Run.bind_apply] at h ⊢
      cases hd : declaration fuel r with
      | exhausted => rw [hd] at h; exact h.elim
      | failed e r₁ => exact absurd hd (Recovers.declaration fuel r e r₁)
      | done first r₁ =>
        rw [hd] at h
        dsimp only at h ⊢
        rw [Run.bind_apply] at h ⊢
        have hends := fun r'' => @declarations_ends fuel r₁ r''
        cases hds : declarations fuel r₁ with
        | exhausted => rw [hds] at h; exact h.elim
        | failed e r₂ =>
          obtain ⟨-, body, hbody⟩ := hends r₂ (by rw [hds]; rfl)
          exact absurd (hds.symm.trans hbody) nofun
        | done rest r₂ =>
          rw [hds] at h
          obtain rfl : r' = r₂ := h
          exact ⟨(hends r' (by rw [hds]; rfl)).1, _, rfl⟩

theorem declarations_of_declaration {kind : Token.Kind} {fuel' : Nat} {first : Option Stmt} {rest : List Stmt}
    (hk : r.kind? = some kind) (hne : kind ≠ .mark .rightBrace) (hd : declaration fuel r = .done first r₁)
    (hds : declarations fuel' r₁ = .done rest r₂) : ∃ fuel'' body, declarations fuel'' r = .done body r₂ := by
  refine ⟨max fuel fuel' + 1, first.toList ++ rest, ?_⟩
  have hd' : declaration (max fuel fuel') r = .done first r₁ := by
    rw [← hd]
    exact (steadies (le_max_left _ _)).declaration r (by rw [hd]; nofun)
  have hds' : declarations (max fuel fuel') r₁ = .done rest r₂ := by
    rw [← hds]
    exact (steadies (le_max_right _ _)).declarations r₁ (by rw [hds]; nofun)
  rw [declarations_go hk hne, Run.bind_of_done hd', Run.bind_of_done hds']
  rfl

theorem block_of_declarations {body : List Stmt} (hds : declarations fuel r = .done body r₁)
    (hk : r₁.kind? = some (.mark .rightBrace)) : block (fuel + 1) r = .done body r₁.skip := by
  rw [block, Run.bind_of_done hds, Run.bind_of_done (show expectMark .rightBrace .afterBlock r₁ = .done r₁.line r₁.skip from
    if_pos hk)]
  rfl

/-- A block fails at the end of the input only. -/
theorem block_failed {e : Error} (h : block fuel r = .failed e r₁) :
    r₁.tokens = [] ∧ e = .syntactic (.endOfInput r₁.endLine) (.missingMark .rightBrace .afterBlock) := by
  cases fuel with
  | zero => cases h
  | succ fuel =>
    rw [block, Run.bind_apply] at h
    cases hds : declarations fuel r with
    | exhausted => rw [hds] at h; cases h
    | failed e' r' =>
      obtain ⟨-, body, hbody⟩ := declarations_ends (show (declarations fuel r).EndsIn r' by rw [hds]; rfl)
      cases hds.symm.trans hbody
    | done body r' =>
      obtain ⟨hk, -⟩ := declarations_ends (show (declarations fuel r).EndsIn r' by rw [hds]; rfl)
      rw [hds] at h
      dsimp only at h
      rw [Run.bind_apply] at h
      obtain hk | hk := hk
      · rw [expectMark, if_neg (by simp [hk])] at h
        cases h
        have ht : r₁.tokens = [] := by simpa [Reader.kind?] using hk
        exact ⟨ht, by simp [Reader.site, ht]⟩
      · rw [expectMark, if_pos hk] at h
        cases h

theorem declaration_at_brace (hk : r.kind? = some (.mark .leftBrace)) (fuel : Nat) :
    declaration (fuel + 2) r = recover (do return .block (← block fuel)) r.skip := by
  have hne : ∀ {kind : Token.Kind}, kind ≠ .mark .leftBrace → r.kind? ≠ some kind := fun h hr =>
    h (Option.some.inj (hk.symm.trans hr)).symm
  have hstatement : statement (fuel + 1) r = (do return .block (← block fuel) : Parse Stmt) r.skip := by
    rw [statement, Run.bind_apply]
    simp only [line, Run.read, acceptKeyword, acceptMark]
    simp (disch := simp [hk]) only [choice_of_ne]
    exact choice_of_eq hk
  rw [declaration_of_ne (hne (by decide)) (hne (by decide)), recover, recover, acceptKeyword, choice_of_ne (hne (by decide)),
    hstatement]

theorem declaration_of_block {body : List Stmt} (hk : r.kind? = some (.mark .leftBrace))
    (hb : block fuel r.skip = .done body r₁) : declaration (fuel + 2) r = .done (some (.block body)) r₁ := by
  rw [declaration_at_brace hk, recover, Run.bind_of_done hb]
  rfl

/-- Neither the identities nor more fuel matter for what is left. -/
theorem leftOfBlock_of_done {tokens : List Token} {nextId : NodeId} {body : List Stmt}
    (h : block fuel (ofTokens tokens nextId) = .done body r) : leftOfBlock tokens = some r.tokens := by
  obtain ⟨hne, hsame⟩ := ParseTask.block.ends_first tokens 0 (by decide)
  have hlarge : block (max fuel (grammarFuel tokens)) (ofTokens tokens nextId) = .done body r := by
    rw [← h]
    exact (steadies (le_max_left _ _)).block _ (by rw [h]; nofun)
  have hshift := (shifting nextId (max fuel (grammarFuel tokens))).block (ofTokens tokens 0)
  have hstart : (ofTokens tokens 0).shifted nextId = ofTokens tokens nextId := by simp [ofTokens, Reader.shifted]
  have hsame : block (max fuel (grammarFuel tokens)) (ofTokens tokens 0) = block (grammarFuel tokens) (ofTokens tokens 0) :=
    hsame _ (le_max_right _ _)
  rw [hstart, hlarge, hsame] at hshift
  unfold leftOfBlock
  cases hb : block (grammarFuel tokens) (ofTokens tokens 0) with
  | exhausted => exact absurd hb hne
  | failed e r' => rw [hb] at hshift; cases hshift
  | done body' r' => rw [hb] at hshift; cases hshift; rfl

theorem block_of_leftOfBlock {tokens left : List Token} (h : leftOfBlock tokens = some left) (nextId : NodeId) :
    ∃ body r, block (grammarFuel tokens) (ofTokens tokens nextId) = .done body r ∧ r.tokens = left := by
  unfold leftOfBlock at h
  split at h
  · rename_i body r hb
    have hshift := (shifting nextId (grammarFuel tokens)).block (ofTokens tokens 0)
    rw [hb] at hshift
    refine ⟨_, _, (congrArg _ ?_).trans hshift, Option.some.inj h⟩
    simp [ofTokens, Reader.shifted]
  · cases h

end Parse

/-! ## What comes after a block -/

/-- A program that starts with the block is read as the block and what is `left` of its tokens, with what comes after them, as if
that stood alone. The errors in the block are found at its tokens, so none of them is that it is not closed. -/
def BlockLeaves (lb : Token) (b : List Token) (rb : Token) (left : List Token) : Prop :=
  ∀ nextId, ∃ body errors nextId', (∀ e ∈ errors, e.IsAtToken) ∧ ∀ rest, parseProgram (lb :: b ++ rb :: rest) nextId =
    { tree := .block body :: recodedStmts (.shift nextId') (parseProgram (left ++ rest) 0).tree
      errors := errors ++ (parseProgram (left ++ rest) 0).errors
      nextId := (parseProgram (left ++ rest) 0).nextId + nextId' }

section
variable {lb rb : Token} {b : List Token} (hlb : lb.kind = .mark .leftBrace) (hrb : rb.kind = .mark .rightBrace)
  (hb : ∀ t ∈ b, t.kind ≠ .eof)
include hlb hrb hb

theorem blockLeaves_of_leftOfBlock {left : List Token} (h : leftOfBlock (b ++ [rb]) = some left) : BlockLeaves lb b rb left := by
  intro nextId
  have hinner : ∀ t ∈ b ++ [rb], t.kind ≠ .eof := by simpa [or_imp, forall_and, hrb] using hb
  have hs : ∀ t ∈ lb :: (b ++ [rb]), t.kind ≠ .eof := List.forall_mem_cons.mpr ⟨by simp [hlb], hinner⟩
  obtain ⟨body, r, hblock, rfl⟩ := block_of_leftOfBlock h nextId
  have hover := fun x : Sequel => (((overlooking x _).block (ofTokens (b ++ [rb]) nextId)).done
    (.inr (by simp [ofTokens_tokens_of_notEof hinner, hrb])) hblock).2 trivial
  have hd : ∀ x : Sequel, declaration (grammarFuel (b ++ [rb]) + 2) (x.reader (ofTokens (lb :: (b ++ [rb])) nextId)) =
      .done (some (.block body)) (x.reader r) := by
    intro x
    have htokens := ofTokens_tokens_of_notEof hs nextId
    have hk : (ofTokens (lb :: (b ++ [rb])) nextId).kind? = some (.mark .leftBrace) := by simp [Reader.kind?, htokens, hlb]
    have hx : x.Hidden (ofTokens (lb :: (b ++ [rb])) nextId) := .inl (ahead_of_kind hk)
    refine declaration_of_block (by rwa [Sequel.kind?_reader hx]) ((congrArg _ ?_).trans (hover x).1)
    rw [Sequel.skip_reader hx, ofTokens_eq hs, ofTokens_eq hinner]
    rfl
  refine ⟨body, r.errors, r.nextId, fun e he => ?_, fun rest => ?_⟩
  · exact ((hover ⟨[rb], 0, []⟩).2 (by simp) e he).resolve_left List.not_mem_nil
  · have hparse := parseProgram_append hs (by simp) hd rest
    simpa using hparse

/-- A block that is not closed takes all tokens, and nothing of it is left in the tree. -/
theorem parseProgram_of_unclosed (h : leftOfBlock (b ++ [rb]) = none) {rest : List Token} (hrest : (ofTokens rest 0).tokens = [])
    (nextId : NodeId) : ∃ errors line nextId', parseProgram (lb :: b ++ rb :: rest) nextId =
      ⟨[], errors ++ [.syntactic (.endOfInput line) (.missingMark .rightBrace .afterBlock)], nextId'⟩ := by
  have hinner : ∀ t ∈ b ++ [rb], t.kind ≠ .eof := by simpa [or_imp, forall_and, hrb] using hb
  have hs : ∀ t ∈ lb :: (b ++ [rb]), t.kind ≠ .eof := List.forall_mem_cons.mpr ⟨by simp [hlb], hinner⟩
  have hwhole : lb :: b ++ rb :: rest = lb :: (b ++ [rb]) ++ rest := by simp
  rw [hwhole]
  let r := ofTokens (lb :: (b ++ [rb]) ++ rest) nextId
  have htokens : r.tokens = lb :: (b ++ [rb]) := by rw [ofTokens_append_tokens hs, hrest, List.append_nil]
  have hk : r.kind? = some (.mark .leftBrace) := by simp [Reader.kind?, htokens, hlb]
  let fuel := r.skip.need ParseTask.block.rank
  cases ho : block fuel r.skip with
  | exhausted => exact absurd ho (ParseTask.block.ends (le_refl _)).1
  | done body r₁ =>
    -- where the input ends does not matter
    let x : Sequel := ⟨[], (ofTokens (b ++ [rb]) nextId).endLine, []⟩
    have hx : x.reader r.skip = ofTokens (b ++ [rb]) nextId := by
      have hskip : r.skip.tokens = b ++ [rb] := by simp [Reader.skip, htokens]
      rw [ofTokens_eq hinner, Sequel.reader, hskip, List.append_nil]
      rfl
    have hdone := (((overlooking x fuel).block r.skip).done (.inl rfl) ho).2 trivial |>.1
    rw [hx] at hdone
    rw [leftOfBlock_of_done hdone] at h
    cases h
  | failed e r₁ =>
    obtain ⟨ht, rfl⟩ := block_failed ho
    have hd := declaration_at_brace hk fuel
    rw [recover, Run.bind_apply, ho] at hd
    dsimp only at hd
    rw [ht, synchronize] at hd
    have hdecl := ((steadies (Nat.le_succ _)).declaration r (by simp [hd])).trans hd
    have hp := program_of_declaration (ahead_of_kind hk) hdecl (program_at_end rfl)
    rw [parseProgram_of_done hp]
    exact ⟨_, _, _, rfl⟩

end

/-! ## Blocks that end at their closing brace -/

/-- Declarations in which each error is found in a simple statement. -/
inductive Tidy : List Token → Prop
  | nil : Tidy []
  | simple {s b : List Token} (hs : IsSimple s) (hb : Tidy b) : Tidy (s ++ b)
  /-- Declarations without errors, if what comes next does not go on with the last one. -/
  | sound {d b : List Token} (hd : ∀ t ∈ d, t.kind ≠ .eof) (he : (parseProgram d 0).errors = [])
      (hfresh : b.head?.map Token.kind ≠ some (.keyword .else)) (hb : Tidy b) : Tidy (d ++ b)
  | block {lb rb : Token} {inner b : List Token} (hlb : lb.kind = .mark .leftBrace) (hrb : rb.kind = .mark .rightBrace)
      (hinner : Tidy inner) (hb : Tidy b) : Tidy (lb :: inner ++ rb :: b)

/-- After a program without errors the declarations go on with what follows it. -/
theorem declarations_of_program (s : Setting) {fuel' : Nat} {r₂ : Reader} {rest : List Stmt} : ∀ {fuel : Nat} {q q' : Reader}
    {sts : List Stmt}, program fuel q = .done sts q' → q'.errors = q.errors →
    declarations fuel' (s.reader q') = .done rest r₂ → ∃ fuel'' body, declarations fuel'' (s.reader q) = .done body r₂
  | fuel + 1, q, q', sts, hp, he, hrest => by
    obtain ⟨-, -, rfl⟩ | ⟨first, q₁, rest', ha, hd, hp', -⟩ := program_cases hp
    · exact ⟨fuel', rest, hrest⟩
    have hl := (program_later hp').errors
    let enough := (s.reader q).need ParseTask.declaration.rank
    obtain ⟨hl', hcarried⟩ := (carrying s fuel enough).declaration q ha first q₁ hd
    have he₁ : q₁.errors = q.errors := (hl'.errors.eq_of_length_le (by rw [← he]; exact hl.length_le)).symm
    have hd' := (hcarried he₁ trivial).resolve_left (ParseTask.declaration.ends (le_refl enough)).1
    obtain ⟨fuel₁, body, hds⟩ := declarations_of_program s hp' (he.trans he₁.symm) hrest
    obtain ⟨t, ts, ht⟩ := List.exists_cons_of_ne_nil ha
    have hk : q.kind? = some t.kind := by simp [Reader.kind?, ht]
    refine declarations_of_declaration ((Setting.kind?_reader ha).trans hk) (fun hbrace => ?_) hd' hds
    exact absurd (errors_of_stray hk (.inr hbrace) hd) (by rw [he₁]; exact Nat.lt_irrefl _)

/-- Tidy declarations are read up to the closing brace behind them. -/
theorem Tidy.declarations {b : List Token} (h : Tidy b) : ∀ (r : Reader) {rb : Token} (more : List Token),
    rb.kind = .mark .rightBrace → r.tokens = b ++ rb :: more →
    ∃ fuel body r', declarations fuel r = .done body r' ∧ r'.tokens = rb :: more := by
  induction h with
  | nil =>
    intro r rb more hrb ht
    exact ⟨1, [], r, declarations_stop (.inr (by simp [Reader.kind?, ht, hrb])) 0, ht⟩
  | @simple s b hs hb ih =>
    intro r rb more hrb ht
    obtain ⟨first, r₁, ht₁, hd⟩ := hs.declaration r.nextId
    let x : Sequel := ⟨b ++ rb :: more, r.endLine, r.errors⟩
    have hr : x.reader (ofTokens s r.nextId) = r := by
      rw [ofTokens_eq hs.notEof]
      simp [x, Sequel.reader, ← List.append_assoc, ← ht]
    have hd := hd x
    rw [hr] at hd
    obtain ⟨fuel, rest, r₂, hrest, ht₂⟩ := ih (x.reader r₁) more hrb (by simp [Sequel.reader, ht₁, x])
    obtain ⟨t, ts, rfl⟩ := List.exists_cons_of_ne_nil hs.ne_nil
    obtain ⟨fuel', body, hbody⟩ := declarations_of_declaration (by simp [Reader.kind?, ht])
      (hs.unbraced t List.mem_cons_self).2 hd hrest
    exact ⟨fuel', body, r₂, hbody, ht₂⟩
  | @sound d b hd he hfresh hb ih =>
    intro r rb more hrb ht
    have hshift := congrArg Parsed.errors (parseProgram_shifted d 0 r.nextId)
    rw [Nat.zero_add] at hshift
    obtain ⟨q', hq, hqe, -⟩ := program_of_parsed (hshift.trans he)
    let s : Setting := ⟨id, b ++ rb :: more, r.endLine, by cases b <;> simp_all⟩
    obtain ⟨fuel, rest, r₂, hrest, ht₂⟩ := ih (s.reader q') more hrb (by simp [Setting.reader, program_ends hq, s])
    obtain ⟨fuel', body, hbody⟩ := declarations_of_program s hq hqe hrest
    -- the errors that were reported before do not matter
    let x : Sequel := ⟨[], r.endLine, r.errors⟩
    have hr : x.reader (s.reader (ofTokens d r.nextId)) = r := by
      have hid : Token.relined id = id := rfl
      rw [ofTokens_eq hd]
      simp [x, s, Sequel.reader, Setting.reader, hid, ← List.append_assoc, ← ht]
    have hdone := ((overlooking x fuel').declarations _).done (.inl rfl) hbody
    have hx : x.Hidden r₂ := .inl (by simp [Reader.Ahead, ht₂])
    rw [hr] at hdone
    exact ⟨fuel', body, x.reader r₂, (hdone.2 hx).1, by simp [Sequel.reader, x, ht₂]⟩
  | @block lb rb' inner b hlb hrb' hinner hb ihinner ih =>
    intro r rb more hrb ht
    have hk : r.kind? = some (.mark .leftBrace) := by simp [Reader.kind?, ht, hlb]
    obtain ⟨fuel, body, r₁, hbody, ht₁⟩ := ihinner r.skip (b ++ rb :: more) hrb' (by simp [Reader.skip, ht])
    have hd := declaration_of_block hk (block_of_declarations hbody (by simp [Reader.kind?, ht₁, hrb']))
    obtain ⟨fuel', rest, r₂, hrest, ht₂⟩ := ih r₁.skip more hrb (by simp [Reader.skip, ht₁])
    obtain ⟨fuel'', body', hbody'⟩ := declarations_of_declaration hk (by decide) hd hrest
    exact ⟨fuel'', body', r₂, hbody', ht₂⟩

theorem Tidy.leftOfBlock {b : List Token} (h : Tidy b) {rb : Token} (hrb : rb.kind = .mark .rightBrace)
    (hb : ∀ t ∈ b, t.kind ≠ .eof) : leftOfBlock (b ++ [rb]) = some [] := by
  have hinner : ∀ t ∈ b ++ [rb], t.kind ≠ .eof := by simpa [or_imp, forall_and, hrb] using hb
  obtain ⟨fuel, body, r, hbody, ht⟩ := h.declarations (ofTokens (b ++ [rb]) 0) [] hrb (ofTokens_tokens_of_notEof hinner 0)
  rw [leftOfBlock_of_done (block_of_declarations hbody (by simp [Reader.kind?, ht, hrb]))]
  simp [Reader.skip, ht]

/-- What a program is read as that starts with a block. -/
structure BlockIsRead (lb : Token) (b : List Token) (rb : Token) : Prop where
  /-- The errors stay in the block if it ends at its closing brace, and if it ends before, up to there. -/
  ended : ∀ left, leftOfBlock (b ++ [rb]) = some left → BlockLeaves lb b rb left
  /-- If it does not end by then, it takes what comes after it too, and at the end of the input it is lost with all of that. -/
  unclosed : leftOfBlock (b ++ [rb]) = none → ∀ rest, (ofTokens rest 0).tokens = [] → ∀ nextId, ∃ errors line nextId',
    parseProgram (lb :: b ++ rb :: rest) nextId =
      ⟨[], errors ++ [.syntactic (.endOfInput line) (.missingMark .rightBrace .afterBlock)], nextId'⟩
  /-- It ends at its closing brace if each error in it is found in a simple statement. -/
  tidy : Tidy b → leftOfBlock (b ++ [rb]) = some []

/-- Where a block ends does not depend on what comes after it, and decides what becomes of that. -/
theorem block_end_decides {lb rb : Token} {b : List Token} (hlb : lb.kind = .mark .leftBrace) (hrb : rb.kind = .mark .rightBrace)
    (hb : ∀ t ∈ b, t.kind ≠ .eof) : BlockIsRead lb b rb where
  ended _ := blockLeaves_of_leftOfBlock hlb hrb hb
  unclosed h _ hrest := parseProgram_of_unclosed hlb hrb hb h hrest
  tidy h := h.leftOfBlock hrb hb

/-- The block `{ 1 + ; { var ; } }`, with an error in each of two statements -/
theorem block_end_of_missing_operand :
    let b : List Token := [⟨.number "1" 1, 1⟩, ⟨.mark .plus, 1⟩, ⟨.mark .semicolon, 1⟩, ⟨.mark .leftBrace, 1⟩, ⟨.keyword .var, 1⟩,
      ⟨.mark .semicolon, 1⟩, ⟨.mark .rightBrace, 1⟩]
    BlockLeaves ⟨.mark .leftBrace, 1⟩ b ⟨.mark .rightBrace, 1⟩ [] := by
  intro b
  have hsum : IsSimple [⟨.number "1" 1, 1⟩, ⟨.mark .plus, 1⟩, ⟨.mark .semicolon, 1⟩] := by decide
  have hvar : IsSimple [⟨.keyword .var, 1⟩, ⟨.mark .semicolon, 1⟩] := by decide
  have htidy : Tidy b := .simple hsum (.block (b := []) rfl rfl (.simple hvar .nil) .nil)
  have h : BlockIsRead ⟨.mark .leftBrace, 1⟩ b ⟨.mark .rightBrace, 1⟩ := block_end_decides rfl rfl (by decide)
  exact h.ended [] (h.tidy htidy)

/-- In `{ x } print 1;` recovery from the missing semicolon takes the closing brace, and the block does not end. -/
theorem recovery_takes_closing_brace :
    ¬ BlockLeaves ⟨.mark .leftBrace, 1⟩ [⟨.identifier "x", 1⟩] ⟨.mark .rightBrace, 1⟩ [] := by
  intro h
  obtain ⟨body, errors, nextId', -, h⟩ := h 0
  have h := congrArg Parsed.tree (h [⟨.keyword .print, 1⟩, ⟨.number "1" 1, 1⟩, ⟨.mark .semicolon, 1⟩])
  have hlost : (parseProgram [⟨.mark .leftBrace, 1⟩, ⟨.identifier "x", 1⟩, ⟨.mark .rightBrace, 1⟩, ⟨.keyword .print, 1⟩,
      ⟨.number "1" 1, 1⟩, ⟨.mark .semicolon, 1⟩] 0).tree = [] := by
    decide +kernel
  exact absurd (hlost.symm.trans h) nofun

end Lox
