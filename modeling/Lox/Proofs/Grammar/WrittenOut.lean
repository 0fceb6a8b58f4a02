import Lox.Proofs.Grammar.Picked
import Lox.Proofs.Syntax.BareTwin

/-!
# Programs that are written out

A program that is read without errors can be written out, whatever is chosen in it. Each text in which it is written out is
read without errors, too, and is the same program.
-/

namespace Lox

open Token (Kind)

variable {loops : Bool} {cs : List Choice} {ts : List Token}

/-! ## What is written -/

/-- Where nothing is chosen the text stays as it is. -/
theorem Unfolds.eq_of_unchosen {φ : Passage} (h : Unfolds loops φ cs ts) (hcs : ∀ c ∈ cs, c.long = false) :
    ts = cs.map Choice.token := by
  induction h with
  | @assign c _ form =>
    have hc : c.long = false := hcs c (by simp)
    cases form <;> simp_all [Assignment.written]
  | @step c =>
    have hc : c.long = false := hcs c (by simp)
    simp_all [stepWritten]
  | _ => simp_all

/-- The operator stands for an assignment that could be written out. -/
def Mark.isUpdate : Mark → Bool
  | .plusEqual | .minusEqual | .starEqual | .slashEqual | .percentEqual | .plusPlus | .minusMinus => true
  | _ => false

/-- The token stands for something longer, which a choice of it writes out. -/
def Token.Kind.isShort (loops : Bool) : Kind → Bool
  | .mark m => m.isUpdate && !loops
  | .keyword k => k == .for && loops
  | _ => false

theorem Assignment.not_short {m op : Mark} (h : Assignment.ofMark? m = some (.combine op)) :
    (Kind.mark op).isShort loops = false ∧ Kind.mark op ≠ .eof := by
  cases m <;> cases h <;> exact ⟨rfl, nofun⟩

theorem Assignment.not_short_of_store {m : Mark} (h : Assignment.ofMark? m = some .store) : (Kind.mark m).isShort loops = false := by
  cases m <;> cases h
  rfl

theorem Leading.not_short {m op : Mark} (h : Leading.ofMark? m = some (.increment op)) :
    (Kind.mark op).isShort loops = false ∧ Kind.mark op ≠ .eof := by
  cases m <;> cases h <;> exact ⟨rfl, nofun⟩

theorem Leading.not_short_of_operator {m op : Mark} (h : Leading.ofMark? m = some (.operator op)) :
    (Kind.mark m).isShort loops = false := by
  cases m <;> cases h <;> rfl

theorem Connective.not_short {level : Nat} {kind : Kind} {op : Connective} (h : Connective.at? level kind = some op) :
    kind.isShort loops = false := by
  unfold Connective.at? at h
  split at h
  · rename_i hof
    unfold Connective.ofKind? at hof
    split at hof
    all_goals first | rfl | cases hof
  · cases h

theorem Token.Kind.not_short_of_literal {kind : Kind} {value : Literal} (h : kind.literal? = some value) :
    kind.isShort loops = false := by
  unfold literal? at h
  split at h
  all_goals first | rfl | cases h

/-- The tokens are new, or they are some of those that there were and have not been chosen to be written out. -/
def Accounted (loops : Bool) (cs : List Choice) (ts : List Token) : Prop := ∀ t ∈ ts,
  (t.kind.isShort loops = false ∧ t.kind ≠ .eof) ∨ ∃ c ∈ cs, c.token = t ∧ (t.kind.isShort loops = true → c.long = false)

namespace Accounted

variable {cs' : List Choice} {ts' : List Token} {c : Choice} {kind : Kind}

theorem nil : Accounted loops cs [] := nofun

theorem mono (h : Accounted loops cs ts) (hcs : cs ⊆ cs') : Accounted loops cs' ts := fun t ht =>
  (h t ht).imp_right fun ⟨c, hc, hct⟩ => ⟨c, hcs hc, hct⟩

theorem both (h : Accounted loops cs ts) (h' : Accounted loops cs ts') : Accounted loops cs (ts ++ ts') :=
  List.forall_mem_append.mpr ⟨h, h'⟩

theorem append (h : Accounted loops cs ts) (h' : Accounted loops cs' ts') : Accounted loops (cs ++ cs') (ts ++ ts') :=
  (h.mono (List.subset_append_left ..)).both (h'.mono (List.subset_append_right ..))

theorem unchosen (hc : c.kind.isShort loops = true → c.long = false) (h : Accounted loops cs ts) :
    Accounted loops (c :: cs) (c.token :: ts) :=
  List.forall_mem_cons.mpr ⟨.inr ⟨c, List.mem_cons_self, rfl, hc⟩, h.mono (List.subset_cons_self ..)⟩

/-- A token that cannot be written out. -/
theorem old (hc : c.kind = kind) (hk : kind.isShort loops = false) (h : Accounted loops cs ts) :
    Accounted loops (c :: cs) (c.token :: ts) :=
  h.unchosen fun hshort => by rw [hc, hk] at hshort; cases hshort

theorem new (hk : kind.isShort loops = false ∧ kind ≠ .eof) (h : Accounted loops cs ts) :
    Accounted loops cs (c.put kind :: ts) :=
  List.forall_mem_cons.mpr ⟨.inl hk, h⟩

/-- An operator that has not been written out. -/
theorem operator {m : Mark} (hc : c.kind = .mark m) (hlong : (c.long && !loops) = false) (h : Accounted loops cs ts) :
    Accounted loops (c :: cs) (c.token :: ts) :=
  h.unchosen fun hshort => by
    rw [hc, Token.Kind.isShort, Bool.and_eq_true] at hshort
    rwa [hshort.2, Bool.and_true] at hlong

theorem ending {closed : Bool} (h : cs.map Choice.kind = endKinds closed) : Accounted loops cs (cs.map Choice.token) := by
  cases closed with
  | false =>
    cases List.map_eq_nil_iff.mp h
    exact .nil
  | true =>
    obtain ⟨c, rfl, hc⟩ := List.map_eq_singleton_iff.mp h
    exact .old hc rfl .nil

theorem condition (h : Accounted loops cs ts) (condition : Option Expr) : Accounted loops cs (writtenCondition c condition ts) := by
  cases condition with
  | none => exact .new ⟨rfl, nofun⟩ .nil
  | some _ => exact h

theorem body (h : Accounted loops cs ts) (increment : Option Expr) (h' : Accounted loops cs ts') :
    Accounted loops cs (writtenBody c increment ts ts') := by
  cases increment with
  | none => exact h'
  | some _ => exact .new ⟨rfl, nofun⟩ (h'.both (h.both (.new ⟨rfl, nofun⟩ (.new ⟨rfl, nofun⟩ .nil))))

theorem loop (h : Accounted loops cs ts) (first : Option Stmt) (h' : Accounted loops cs ts') :
    Accounted loops cs (writtenLoop c first ts ts') := by
  cases first with
  | none => exact h'
  | some _ => exact .new ⟨rfl, nofun⟩ (h.both (h'.both (.new ⟨rfl, nofun⟩ .nil)))

end Accounted

theorem Unfolds.accounted {φ : Passage} (h : Unfolds loops φ cs ts) : Accounted loops cs ts := by
  induction h with
  | plain _ ih => exact ih
  | @assign c m form _ _ _ ct co tt to' hc hm _ _ _ iht iho =>
    cases form with
    | store => exact iht.append (.old hc (Assignment.not_short_of_store hm) iho)
    | combine op =>
      cases hlong : (c.long && !loops) with
      | false => exact iht.append (.operator hc hlong iho)
      | true =>
        have ht : Accounted loops (ct ++ c :: co) tt := iht.mono (List.subset_append_left ..)
        have ho : Accounted loops (ct ++ c :: co) to' := iho.mono fun d hd => by simp [hd]
        exact ht.both (.new ⟨rfl, nofun⟩ (ht.both (.new (Assignment.not_short hm) (.new ⟨rfl, nofun⟩
          (ho.both (.new ⟨rfl, nofun⟩ .nil))))))
  | operators _ _ _ ihl ih => exact ihl.append ih
  | strongest _ ih => exact ih
  | chainEnd => exact .nil
  | operator hop _ _ _ ihr ih => exact .old rfl (Connective.not_short hop) (ihr.append ih)
  | leading hc hm _ ih => exact .old hc (Leading.not_short_of_operator hm) ih
  | @step c m op _ _ cs ts hc hm _ _ ih =>
    cases hlong : (c.long && !loops) with
    | false => exact .operator hc hlong ih
    | true =>
      have ht : Accounted loops (c :: cs) ts := ih.mono (List.subset_cons_self ..)
      exact .new ⟨rfl, nofun⟩ (ht.both (.new ⟨rfl, nofun⟩ (ht.both (.new (Leading.not_short hm) (.new ⟨rfl, nofun⟩
        (.new ⟨rfl, nofun⟩ .nil))))))
  | called _ ih => exact ih
  | suffixed _ _ ihh ih => exact ihh.append ih
  | suffixEnd => exact .nil
  | invoked hc _ _ _ hd _ iha ih => exact .old hc rfl (iha.append (.old hd rfl ih))
  | got hc _ hd _ ih => exact .old hc rfl (.old hd rfl ih)
  | noArguments => exact .nil
  | lastArgument _ ih => exact ih
  | argument _ hc _ ihe ih => exact ihe.append (.old hc rfl ih)
  | literal hc => exact .old rfl (Token.Kind.not_short_of_literal hc) .nil
  | this hc => exact .old hc rfl .nil
  | super hc hd hf => exact .old hc rfl (.old hd rfl (.old hf rfl .nil))
  | var hc => exact .old hc rfl .nil
  | group hc _ hd ih => exact .old hc rfl (ih.append (.old hd rfl .nil))
  | lambda hc hd _ _ ihp ihb => exact .old hc rfl (.old hd rfl (ihp.append ihb))
  | noNames => exact .nil
  | lastName hc => exact .old hc rfl .nil
  | name hc hd _ ih => exact .old hc rfl (.old hd rfl ih)
  | parameters _ _ hc ih => exact ih.append (.old hc rfl .nil)
  | blockBody hc _ ih => exact .old hc rfl ih
  | shortBody hc _ hending ih => exact .old hc rfl (ih.append (.ending hending))
  | block _ hc ih => exact ih.append (.old hc rfl .nil)
  | noDeclarations => exact .nil
  | declarations _ _ ih ihs => exact ih.append ihs
  | variableDeclaration hc _ ih => exact .old hc rfl ih
  | functionDeclaration hc hd hf _ _ ihp ihb => exact .old hc rfl (.old hd rfl (.old hf rfl (ihp.append ihb)))
  | classDeclaration hc hd _ hf _ hg ihr ihm =>
    exact .old hc rfl (.old hd rfl (ihr.append (.old hf rfl (ihm.append (.old hg rfl .nil)))))
  | statementDeclaration _ ih => exact ih
  | noSuperclass => exact .nil
  | superclass hc hd => exact .old hc rfl (.old hd rfl .nil)
  | noMembers => exact .nil
  | instanceMember _ _ ih ihs => exact ih.append ihs
  | staticMember hk _ _ ih ihs => exact .old hk rfl (ih.append ihs)
  | getter hc _ ih => exact .old hc rfl ih
  | method hc hd _ _ ihp ihb => exact .old hc rfl (.old hd rfl (ihp.append ihb))
  | declared hc hd => exact .old hc rfl (.old hd rfl .nil)
  | initialized hc hd _ hf ih => exact .old hc rfl (.old hd rfl (ih.append (.old hf rfl .nil)))
  | expr _ hc ih => exact ih.append (.old hc rfl .nil)
  | print hc _ hd ih => exact .old hc rfl (ih.append (.old hd rfl .nil))
  | blockStatement hc _ ih => exact .old hc rfl ih
  | returns hc _ hd ih => exact .old hc rfl (ih.append (.old hd rfl .nil))
  | breaks hc hd => exact .old hc rfl (.old hd rfl .nil)
  | branch hc hd _ hf _ ihc ih => exact .old hc rfl (.old hd rfl (ihc.append (.old hf rfl ih)))
  | branches hc hd _ hf _ hg _ ihc ih iho =>
    exact .old hc rfl (.old hd rfl (ihc.append (.old hf rfl (ih.append (.old hg rfl iho)))))
  | loop hc hd _ hf _ ihc ih => exact .old hc rfl (.old hd rfl (ihc.append (.old hf rfl ih)))
  | @forLoop c d f g _ first condition increment _ ci cc cn cs ti tc tn ts hc hd _ _ hf _ hg _ ihi ihc ihn ih =>
    split
    · let all := c :: d :: (ci ++ (cc ++ f :: (cn ++ g :: cs)))
      have hi : Accounted loops all ti := ihi.mono fun x hx => by simp [all, hx]
      have hcond : Accounted loops all tc := ihc.mono fun x hx => by simp [all, hx]
      have hn : Accounted loops all tn := ihn.mono fun x hx => by simp [all, hx]
      have hs : Accounted loops all ts := ih.mono fun x hx => by simp [all, hx]
      exact hi.loop first (.new ⟨rfl, nofun⟩ (.new ⟨rfl, nofun⟩ ((hcond.condition condition).both
        (.new ⟨rfl, nofun⟩ (hn.body increment hs)))))
    · rename_i hlong
      refine .unchosen (fun hshort => ?_) (.old hd rfl (ihi.append (ihc.append (.old hf rfl (ihn.append (.old hg rfl ih))))))
      rw [hc] at hshort
      exact Bool.eq_false_iff.mpr fun h => hlong (Bool.and_eq_true_iff.mpr ⟨h, hshort⟩)
  | absent => exact .nil
  | present _ ih => exact ih
  | noInitializer hc => exact .old hc rfl .nil
  | variableInitializer hc _ ih => exact .old hc rfl ih
  | exprInitializer _ hc ih => exact ih.append (.old hc rfl .nil)

/-- No end is written in the middle of a text. -/
theorem Unfolds.ne_eof {φ : Passage} (h : Unfolds loops φ cs ts) (hcs : ∀ c ∈ cs, c.token.kind ≠ .eof) :
    ∀ t ∈ ts, t.kind ≠ .eof := by
  intro t ht
  obtain ⟨-, hne⟩ | ⟨c, hc, rfl, -⟩ := h.accounted t ht
  · exact hne
  · exact hcs c hc

/-! ## Programs -/

/-- The text is that of the tokens, with everything that is chosen written out. What comes after the end is not read. -/
def WritesOut (loops : Bool) (tree : List Stmt) (cs : List Choice) (out : List Token) : Prop :=
  ∃ ts, Unfolds loops (.declarations (bareStmts true tree)) (cs.takeWhile (·.token.kind ≠ .eof)) ts ∧
    out = ts ++ (cs.dropWhile (·.token.kind ≠ .eof)).map Choice.token

variable {nextId : NodeId}

theorem WritesOut.exists_of_parsed (h : (parseProgram (cs.map Choice.token) nextId).errors = []) :
    ∃ out, WritesOut loops (parseProgram (cs.map Choice.token) nextId).tree cs out := by
  obtain ⟨r, hr, herrors, -⟩ := Parse.program_of_parsed h
  have hall : (cs.takeWhile (·.token.kind ≠ .eof)).map Choice.token = (Reader.ofTokens (cs.map Choice.token) nextId).tokens := by
    rw [Reader.ofTokens, List.takeWhile_map]
    rfl
  have hpicked := Parse.picks_program loops (grammarFuel (cs.map Choice.token)) _ _ hall
  rw [hr] at hpicked
  obtain ⟨cs', rest, hcs, -, ⟨ts, hts⟩, rfl⟩ := hpicked.2 herrors
  rw [List.append_nil] at hcs
  exact ⟨_, ts, hcs ▸ hts, rfl⟩

namespace WritesOut

variable {tree : List Stmt} {out : List Token}

/-- The text is read up to its end. -/
theorem to_end (h : WritesOut loops tree cs out) :
    Unfolds loops (.declarations (bareStmts true tree)) (cs.takeWhile (·.token.kind ≠ .eof)) (out.takeWhile (·.kind ≠ .eof)) := by
  obtain ⟨ts, hts, rfl⟩ := h
  have hne := hts.ne_eof fun c hc => of_decide_eq_true (List.all_eq_true.mp List.all_takeWhile c hc)
  have hall : ∀ t ∈ ts, decide (t.kind ≠ .eof) = true := fun t ht => decide_eq_true (hne t ht)
  have hend : ((cs.dropWhile (·.token.kind ≠ .eof)).map Choice.token).takeWhile (·.kind ≠ .eof) = [] := by
    have hhead := List.head?_dropWhile_not (fun c : Choice => decide (c.token.kind ≠ .eof)) cs
    cases hdrop : cs.dropWhile (·.token.kind ≠ .eof) with
    | nil => rfl
    | cons c rest =>
      rw [hdrop] at hhead
      exact List.takeWhile_cons_of_neg (Bool.eq_false_iff.mp hhead)
  rw [List.takeWhile_append_of_pos hall, hend, List.append_nil]
  exact hts

theorem eq_of_unchosen (h : WritesOut loops tree cs out) (hcs : ∀ c ∈ cs, c.long = false) : out = cs.map Choice.token := by
  obtain ⟨ts, hts, rfl⟩ := h
  rw [hts.eq_of_unchosen fun c hc => hcs c (List.takeWhile_subset _ hc), ← List.map_append, List.takeWhile_append_dropWhile]

/-- What is chosen is gone from the program. -/
theorem unchosen_of_short (h : WritesOut loops tree cs out) :
    ∀ t ∈ out.takeWhile (·.kind ≠ .eof), t.kind.isShort loops = true → ∃ c ∈ cs, c.long = false ∧ c.token = t := by
  intro t ht hshort
  obtain ⟨hnot, -⟩ | ⟨c, hc, rfl, hlong⟩ := h.to_end.accounted t ht
  · cases hshort.symm.trans hnot
  · exact ⟨c, List.takeWhile_subset _ hc, hlong hshort, rfl⟩

theorem parsed (h : WritesOut loops tree cs out) (nextId : NodeId) :
    (parseProgram out nextId).errors = [] ∧ bareStmts loops (parseProgram out nextId).tree = bareStmts loops tree := by
  have htaken := h.to_end.taken.2.2 (grammarFuel out) (Reader.ofTokens out nextId) (List.append_nil _).symm
  rcases htaken with hex | ⟨tree', r, hr, hbare, -, herrors⟩
  · exact absurd hex (Parse.program_has_fuel out nextId)
  · unfold parseProgram
    rw [hr]
    exact ⟨herrors, hbare.trans (bareStmts_bare loops tree)⟩

end WritesOut

end Lox
