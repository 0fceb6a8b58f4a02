import Mathlib.Data.List.Nodup
import Lox.Proofs.Scope.Pending
import Lox.Proofs.Syntax.Every

/-!
# The rules of scopes

What a program has to keep so that its resolution reports nothing, said of where the nodes stand in the tree.
The walk keeps a context, and it agrees with the position of the node at which the walk is.
-/

namespace Lox

/-- The rules that a program keeps. -/
structure Lawful (program : List Stmt) : Prop where
  /-- No local scope declares a name twice. The parameters of a function are in the scope of its body. -/
  distinct : ∀ s ∈ programRegions program, (s.declared.map Name.text).Nodup
  /-- No variable is read in its own initializer, unless from an inner scope. -/
  initializers : ∀ id name pos, (.expr (.var id name), pos) ∈ programNodes program → ¬ pos.Initializes name.text
  /-- A `return` is in a body, and one with a value not directly in that of an initializer. -/
  returns : ∀ form line value pos, (.stmt (.returns form line value), pos) ∈ programNodes program →
    ∃ body, pos.body? = some body ∧ (value.isSome = true → ¬ body.IsInitializer)
  breaks : ∀ line pos, (.stmt (.breaks line), pos) ∈ programNodes program → pos.InLoop
  /-- `this` is in an instance member of the innermost class. -/
  this : ∀ id line pos, (.expr (.this id line), pos) ∈ programNodes program →
    ∃ superclass m, pos.member? = some (.member superclass false m)
  /-- So is `super`, and the class has a superclass. -/
  super : ∀ id line method pos, (.expr (.super id line method), pos) ∈ programNodes program →
    ∃ ref m, pos.member? = some (.member (some ref) false m)
  superclasses : ∀ name ref methods statics pos,
    (.stmt (.classDecl name (some ref) methods statics), pos) ∈ programNodes program → ref.name.text ≠ name.text

/-- What the rules say of one node, but for the names that it declares. -/
def Node.Rule : Node → Position → Prop
  | .expr (.var _ name), pos => ¬ pos.Initializes name.text
  | .expr (.this _ _), pos => ∃ superclass m, pos.member? = some (.member superclass false m)
  | .expr (.super _ _ _), pos => ∃ ref m, pos.member? = some (.member (some ref) false m)
  | .stmt (.returns _ _ value), pos => ∃ body, pos.body? = some body ∧ (value.isSome = true → ¬ body.IsInitializer)
  | .stmt (.breaks _), pos => pos.InLoop
  | .stmt (.classDecl name (some ref) _ _), _ => ref.name.text ≠ name.text
  | _, _ => True

structure Node.Allowed (node : Node) (pos : Position) : Prop where
  distinct : ∀ s ∈ node.region? pos, (s.declared.map Name.text).Nodup
  rule : node.Rule pos

/-- Most nodes open no scope. -/
theorem Node.allowed_iff_rule {node : Node} {pos : Position} (h : node.region? pos = none) : node.Allowed pos ↔ node.Rule pos :=
  ⟨Node.Allowed.rule, fun hr => ⟨by simp [h], hr⟩⟩

/-- The rules hold of all the nodes. -/
def AllAllowed (nodes : List (Node × Position)) : Prop := ∀ n ∈ nodes, n.1.Allowed n.2

@[simp] theorem allAllowed_nil : AllAllowed [] := nofun

@[simp] theorem allAllowed_cons (n : Node × Position) (ns : List (Node × Position)) :
    AllAllowed (n :: ns) ↔ n.1.Allowed n.2 ∧ AllAllowed ns := List.forall_mem_cons

@[simp] theorem allAllowed_append (ms ns : List (Node × Position)) :
    AllAllowed (ms ++ ns) ↔ AllAllowed ms ∧ AllAllowed ns := List.forall_mem_append

theorem lawful_iff_allAllowed (program : List Stmt) : Lawful program ↔ AllAllowed (programNodes program) := by
  constructor
  · rintro ⟨hd, hi, hr, hb, ht, hs, hc⟩ ⟨node, pos⟩ hn
    refine ⟨fun s hs => hd s (List.mem_filterMap.mpr ⟨_, hn, hs⟩), ?_⟩
    unfold Node.Rule
    dsimp only
    split
    · exact hi _ _ _ hn
    · exact ht _ _ _ hn
    · exact hs _ _ _ _ hn
    · exact hr _ _ _ _ hn
    · exact hb _ _ hn
    · exact hc _ _ _ _ _ hn
    · trivial
  · intro h
    refine ⟨fun s hs => ?_, ?_, ?_, ?_, ?_, ?_, ?_⟩
    · obtain ⟨n, hn, hs⟩ := List.mem_filterMap.mp hs
      exact (h n hn).distinct s hs
    all_goals intros; exact (h _ (by assumption)).rule

/-! ## Positions and contexts -/

/-- The context in what a node lies in. -/
def Enclosure.context : Enclosure → Context → Context
  | .loop, ctx => ctx.loop
  | .function, ctx => ctx.enter .function
  | .member superclass true _, ctx => (ctx.statics superclass).enter .function
  | .member superclass false m, ctx => (ctx.methods superclass).enter m.bodyKind

namespace Enclosure

/-- The kind of the body of a function or member. -/
def bodyKind : Enclosure → BodyKind
  | member _ false m => m.bodyKind
  | _ => .function

theorem bodyKind_ne_program (e : Enclosure) : e.bodyKind ≠ .program := by
  cases e with
  | loop => exact nofun
  | function => exact nofun
  | member superclass isStatic m =>
    cases isStatic with
    | true => exact nofun
    | false =>
      simp only [bodyKind, Method.bodyKind]
      split <;> exact nofun

theorem bodyKind_initializer_iff (e : Enclosure) : e.bodyKind = .initializer ↔ e.IsInitializer := by
  obtain _ | _ | ⟨_, _ | _, m⟩ := e <;> simp [bodyKind, Method.bodyKind, IsInitializer]

/-- The class of a member, and whether the member is static. -/
def membership : Enclosure → ClassKind × Bool
  | member superclass isStatic _ => (.ofSuperclass superclass, isStatic)
  | _ => (.none, false)

end Enclosure

def Position.context (pos : Position) : Context := pos.within.foldr Enclosure.context {}

namespace Position

variable (pos : Position)

/-- The body that the context tells is the one around the node. -/
theorem context_body : pos.context.body = (pos.body?.map Enclosure.bodyKind).getD .program := by
  unfold context body?
  induction pos.within with
  | nil => rfl
  | cons e es ih =>
    obtain _ | _ | ⟨superclass, _ | _, m⟩ := e
    -- only a loop leaves the body as it is around it
    · exact ih
    all_goals rfl

theorem context_body_iff : pos.context.body ≠ .program ↔ ∃ body, pos.body? = some body := by
  rw [context_body]
  cases pos.body? with
  | none => simp
  | some e => simpa using e.bodyKind_ne_program

theorem context_initializer_iff : pos.context.body = .initializer ↔ ∃ body, pos.body? = some body ∧ body.IsInitializer := by
  rw [context_body]
  cases pos.body? with
  | none => simp
  | some e => simpa using e.bodyKind_initializer_iff

theorem context_inLoop_iff : pos.context.inLoop = true ↔ pos.InLoop := by
  unfold context InLoop
  induction pos.within with
  | nil => simp
  | cons e es ih =>
    obtain _ | _ | ⟨superclass, _ | _, m⟩ := e <;>
      simp [Enclosure.context, Context.loop, Context.enter, Enclosure.isBody]

/-- The class that the context tells is that of the member around the node. -/
theorem context_membership : (pos.context.classKind, pos.context.inStatic) =
    (pos.member?.map Enclosure.membership).getD (.none, false) := by
  unfold context member?
  induction pos.within with
  | nil => rfl
  | cons e es ih =>
    obtain _ | _ | ⟨superclass, _ | _, m⟩ := e
    -- loops and functions leave the class as it is around them
    · exact ih
    · exact ih
    all_goals rfl

theorem context_this_iff : pos.context.classKind ≠ .none ∧ pos.context.inStatic = false ↔
    ∃ superclass m, pos.member? = some (.member superclass false m) := by
  obtain ⟨hk, hs⟩ := Prod.ext_iff.mp pos.context_membership
  dsimp only at hk hs
  rw [hk, hs]
  cases pos.member? with
  | none => simp
  | some e => obtain _ | _ | ⟨_ | _, _ | _, m⟩ := e <;> simp [Enclosure.membership, ClassKind.ofSuperclass]

theorem context_super_iff : pos.context.classKind = .derived ∧ pos.context.inStatic = false ↔
    ∃ ref m, pos.member? = some (.member (some ref) false m) := by
  obtain ⟨hk, hs⟩ := Prod.ext_iff.mp pos.context_membership
  dsimp only at hk hs
  rw [hk, hs]
  cases pos.member? with
  | none => simp
  | some e => obtain _ | _ | ⟨_ | _, _ | _, m⟩ := e <;> simp [Enclosure.membership, ClassKind.ofSuperclass]

end Position

/-! ## Duplicates -/

/-- No name is declared that the innermost scope has, and none twice. -/
def Scopes.New (scopes : Scopes) (names : List String) : Prop :=
  ∀ s ∈ scopes.head?, names.Nodup ∧ names.Disjoint s.names

namespace Scopes

theorem new_nil (scopes : Scopes) : New scopes [] := fun _ _ => ⟨List.nodup_nil, List.disjoint_nil_left _⟩

theorem new_global (names : List String) : New [] names := fun _ hs => absurd hs (Option.not_mem_none _)

theorem new_append (scopes : Scopes) (xs ys : List String) :
    New scopes (ys ++ xs) ↔ New scopes xs ∧ New (scopes.declare xs) ys := by
  cases scopes with
  | nil => simp [New, declare]
  | cons s outer =>
    simp only [New, declare, List.head?_cons, Option.mem_some_iff, forall_eq', List.nodup_append',
      List.disjoint_append_left, List.disjoint_append_right]
    tauto

/-- In a scope that has only these names so far. -/
theorem new_cons (s : LocalScope) (outer : Scopes) (names : List String) (h : s.names.Nodup) :
    New (s :: outer) names ↔ (names ++ s.names).Nodup := by
  simp [New, List.nodup_append', h]

end Scopes

/-! ## One step -/

/-- From the first resolution on, errors are found just where the nodes break the rules. -/
structure Checks (r r' : Resolution) (nodes : List (Node × Position)) : Prop where
  errors : r'.errors = [] ↔ r.errors = [] ∧ AllAllowed nodes
  pending : r'.pending = r.pending

/-- So too for code that declares names. -/
structure Enacts (r r' : Resolution) (pos : Position) (names : List String) (nodes : List (Node × Position)) : Prop where
  errors : r'.errors = [] ↔ r.errors = [] ∧ pos.scopes.New names ∧ AllAllowed nodes
  pending : r'.pending = r.pending

section
variable {r r₁ r₂ : Resolution} {ms ns : List (Node × Position)}

namespace Checks

theorem refl (r : Resolution) : Checks r r [] := ⟨by simp, rfl⟩

theorem trans (h : Checks r r₁ ms) (h' : Checks r₁ r₂ ns) : Checks r r₂ (ms ++ ns) :=
  ⟨by rw [h'.errors, h.errors, allAllowed_append, and_assoc], h'.pending.trans h.pending⟩

theorem cons (h : Checks r r₁ ns) {node : Node} {pos : Position} (hn : node.Allowed pos) : Checks r r₁ ((node, pos) :: ns) :=
  ⟨by rw [h.errors, allAllowed_cons]; exact and_congr_right fun _ => (and_iff_right hn).symm, h.pending⟩

theorem one {node : Node} {pos : Position} (he : r₁.errors = [] ↔ r.errors = [] ∧ node.Allowed pos)
    (hp : r₁.pending = r.pending) : Checks r r₁ [(node, pos)] :=
  ⟨by simpa using he, hp⟩

/-- The code of a scope of `this`. -/
theorem received (h : Checks (r.openImplicit "this") r₁ ns) : Checks r r₁.closeScope ns :=
  ⟨by simpa [Resolution.openImplicit] using h.errors, by simp [h.pending]⟩

theorem enacts (h : Checks r r₁ ns) (pos : Position) : Enacts r r₁ pos [] ns :=
  ⟨by rw [h.errors]; exact and_congr_right fun _ => (and_iff_right (Scopes.new_nil _)).symm, h.pending⟩

end Checks

namespace Enacts

variable {pos : Position} {xs ys : List String}

theorem trans (h : Enacts r r₁ pos xs ms) (h' : Enacts r₁ r₂ (pos.declare xs) ys ns) :
    Enacts r r₂ pos (ys ++ xs) (ms ++ ns) := by
  refine ⟨?_, h'.pending.trans h.pending⟩
  rw [h'.errors, h.errors, allAllowed_append, Scopes.new_append]
  simp only [Position.declare]
  tauto

theorem cons (h : Enacts r r₁ pos xs ns) {node : Node} {p : Position} (hn : node.Allowed p) :
    Enacts r r₁ pos xs ((node, p) :: ns) :=
  ⟨by rw [h.errors, allAllowed_cons, and_iff_right hn], h.pending⟩

/-- Code that declares nothing comes first. -/
theorem after (h : Enacts r₁ r₂ pos ys ns) (h' : Checks r r₁ ms) : Enacts r r₂ pos ys (ms ++ ns) := by
  refine ⟨?_, h.pending.trans h'.pending⟩
  rw [h.errors, h'.errors, allAllowed_append]
  tauto

/-- The position counts only for its scopes. -/
theorem leave {e : Enclosure} (h : Enacts r r₁ (pos.enter e) xs ns) : Enacts r r₁ pos xs ns := ⟨h.errors, h.pending⟩

/-- The code of a whole scope, at the node that opens it. -/
theorem closed {s : LocalScope} (h : Enacts r.openScope r₁ (pos.inside s) xs ns) (hs : s.names = []) {node : Node}
    (hn : node.Allowed pos ↔ xs.Nodup) : Checks r r₁.closeScope ((node, pos) :: ns) := by
  have hnew : (pos.inside s).scopes.New xs ↔ xs.Nodup := by
    have := Scopes.new_cons s pos.scopes xs (by simp [hs])
    rwa [hs, List.append_nil] at this
  refine ⟨?_, by simp [h.pending]⟩
  rw [Resolution.closeScope_errors, h.errors, hnew, allAllowed_cons, hn]
  rfl

end Enacts
end

theorem allowed_block_iff (body : List Stmt) (pos : Position) :
    (Node.stmt (.block body)).Allowed pos ↔ (declaredBy body).Nodup := by
  rw [declaredBy_eq, List.nodup_reverse]
  exact ⟨fun h => h.distinct _ rfl, fun h => ⟨fun s hs => by cases hs; exact h, trivial⟩⟩

theorem allowed_routine_iff (params : List Name) (body : List Stmt) (pos : Position) :
    (Node.routine ⟨params, body⟩).Allowed pos ↔ (declaredBy body ++ (params.map Name.text).reverse).Nodup := by
  rw [declaredBy_eq, ← List.reverse_append, List.nodup_reverse, ← List.map_append]
  exact ⟨fun h => h.distinct _ rfl, fun h => ⟨fun s hs => by cases hs; exact h, trivial⟩⟩

namespace Resolution

variable {r : Resolution} {pos : Position}

theorem reportIf_errors (r : Resolution) (found : Bool) (site : Site) (fault : ScopeFault) :
    (r.reportIf found site fault).errors = [] ↔ r.errors = [] ∧ found = false := by
  cases found with
  | false => simp [reportIf]
  | true => simpa [reportIf] using report_errors_ne r site fault

theorem readVariable_checks (h : Follows r pos) (id : NodeId) (name : Name) :
    Checks r (r.readVariable id name) [(.expr (.var id name), pos)] := by
  refine .one ?_ (by simp [readVariable])
  rw [readVariable, use_errors, reportIf_errors, Bool.eq_false_iff, ne_eq, h.pending, Node.allowed_iff_rule rfl, Node.Rule]

theorem readThis_checks (id : NodeId) (line : Nat) :
    Checks r (r.readThis pos.context id line) [(.expr (.this id line), pos)] := by
  refine .one ⟨fun he => ?_, fun h => ?_⟩ ?_
  · obtain ⟨hk, hs, hu⟩ := of_readThis he
    rw [hu, use_errors] at he
    exact ⟨he, (Node.allowed_iff_rule rfl).mpr (pos.context_this_iff.mp ⟨hk, hs⟩)⟩
  · obtain ⟨hk, hs⟩ := pos.context_this_iff.mpr h.2.rule
    unfold readThis
    split
    · contradiction
    · simpa [hs] using h.1
  · unfold readThis
    split
    · simp
    · split <;> simp

theorem readSuper_checks (id : NodeId) (line : Nat) (method : Name) :
    Checks r (r.readSuper pos.context id line) [(.expr (.super id line method), pos)] := by
  refine .one ⟨fun he => ?_, fun h => ?_⟩ ?_
  · obtain ⟨hk, hs, hu⟩ := of_readSuper he
    rw [hu, use_errors] at he
    exact ⟨he, (Node.allowed_iff_rule rfl).mpr (pos.context_super_iff.mp ⟨hk, hs⟩)⟩
  · obtain ⟨hk, hs⟩ := pos.context_super_iff.mpr h.2.rule
    simpa [readSuper, hk, hs] using h.1
  · unfold readSuper
    split
    · simp
    · simp
    · split <;> simp

theorem checkReturn_errors (pos : Position) (form : ReturnForm) (line : Nat) (value : Option Expr) :
    (r.checkReturn pos.context form line value.isSome).errors = [] ↔
      r.errors = [] ∧ (Node.stmt (.returns form line value)).Allowed pos := by
  have hb := pos.context_body_iff
  have hi := pos.context_initializer_iff
  simp only [checkReturn, reportIf_errors, and_assoc]
  refine and_congr_right fun _ => ?_
  rw [Node.allowed_iff_rule rfl, Node.Rule]
  simp only [decide_eq_false_iff_not, Bool.and_eq_false_imp]
  constructor
  · rintro ⟨hp, hv⟩
    obtain ⟨body, hbody⟩ := hb.mp hp
    exact ⟨body, hbody, fun hs hinit => hv hs (hi.mpr ⟨body, hbody, hinit⟩)⟩
  · rintro ⟨body, hbody, hv⟩
    refine ⟨hb.mpr ⟨body, hbody⟩, fun hs hinit => ?_⟩
    obtain ⟨body', hbody', hinit⟩ := hi.mp hinit
    exact hv hs (Option.some.inj (hbody.symm.trans hbody') ▸ hinit)

theorem checkBreak_checks (r : Resolution) (pos : Position) (line : Nat) :
    Checks r (r.checkBreak pos.context line) [(.stmt (.breaks line), pos)] := by
  refine .one ?_ (by simp [checkBreak])
  rw [checkBreak, reportIf_errors, Node.allowed_iff_rule rfl, Node.Rule, ← pos.context_inLoop_iff, Bool.not_eq_false']

theorem declare_errors (h : Mirrors r.scopes pos.scopes) (name : Name) :
    (r.declare name).errors = [] ↔ r.errors = [] ∧ pos.scopes.New [name.text] := by
  unfold declare Scopes.New
  cases hp : pos.scopes with
  | nil => rw [hp] at h; rw [List.forall₂_nil_right_iff.mp h]; simp
  | cons s outer =>
    rw [hp] at h
    obtain ⟨scope, open_, hh, -, hr⟩ := List.forall₂_cons_right_iff.mp h
    rw [hr]
    simp [reportIf_errors, Bool.eq_false_iff, hh name.text]

theorem introduce_enacts (h : Follows r pos) (hs : pos.Settled) (name : Name) :
    Enacts r (r.introduce name) pos [name.text] [] := by
  refine ⟨?_, ?_⟩
  · simp [introduce, declare_errors h.mirrors]
  · rw [introduce, pending_define, pending_declare, pending_defined (h.settled hs)]

theorem introduceAll_enacts (params : List Name) {r : Resolution} {pos : Position} (h : Follows r pos) (hs : pos.Settled) :
    Enacts r (params.foldl introduce r) pos (params.map Name.text).reverse [] := by
  induction params generalizing r pos with
  | nil => exact (Checks.refl r).enacts pos
  | cons p ps ih =>
    have hp := introduce_enacts h hs p
    have hps := ih (h.declared hp.pending (introduce_mirrors h.mirrors p)) (hs.declare _)
    simpa using hp.trans hps

/-- A superclass is read, and the scope of `super` opened. -/
theorem readSuperclass_errors (h : Follows r pos) (name : Name) (superclass : Option Reference) (methods statics : List Method)
    (around : Position) : (r.readSuperclass name superclass).errors = [] ↔ r.errors = [] ∧
      (Node.stmt (.classDecl name superclass methods statics)).Allowed around ∧
      AllAllowed (superclass.map fun ref => (Node.expr (.var ref.id ref.name), pos)).toList := by
  rw [Node.allowed_iff_rule rfl]
  cases superclass with
  | none => simp [readSuperclass, Node.Rule]
  | some ref =>
    have hc : Follows (r.reportIf (ref.name.text = name.text) ref.name.site .inheritsFromItself) pos :=
      h.of_pending (by simp) (by simpa using h.mirrors)
    have hv := (readVariable_checks hc ref.id ref.name).errors
    simp only [reportIf_errors] at hv
    simpa [readSuperclass, openImplicit, Node.Rule, and_assoc] using hv

theorem pending_readSuperclass (r : Resolution) (name : Name) (superclass : Option Reference) :
    (r.readSuperclass name superclass).pending =
      if superclass.isSome then (fun _ => false) :: r.pending else r.pending := by
  cases superclass <;> simp [readSuperclass, readVariable]

theorem pending_closeSuperclass (r : Resolution) (superclass : Option Reference) :
    (r.closeSuperclass superclass).pending = if superclass.isSome then r.pending.tail else r.pending := by
  cases superclass <;> simp [closeSuperclass]

theorem readSuperclass_follows (h : Follows r pos) (name : Name) (superclass : Option Reference) (decl : Stmt) :
    Follows (r.readSuperclass name superclass) (pos.derive decl superclass) := by
  have hm := readSuperclass_mirrors h.mirrors name superclass decl
  have hp := pending_readSuperclass r name superclass
  cases superclass with
  | none => exact h
  | some ref => exact .inside hp rfl hm

end Resolution

open Resolution

/-! ## The walk -/

mutual

theorem Expr.resolve_checks : ∀ (e : Expr) {r : Resolution} {pos : Position}, Follows r pos →
    Checks r (e.resolve pos.context r) (e.nodes pos)
  | .literal _, r, pos, _ => (Checks.refl r).cons ⟨nofun, trivial⟩
  | .unary _ _ operand, _, _, h => (operand.resolve_checks h).cons ⟨nofun, trivial⟩
  | .binary _ _ left right, r, pos, h => by
    have hl := left.resolve_checks h
    have hr := right.resolve_checks (h.of_pending hl.pending (left.resolve_mirrors _ h.mirrors))
    exact (hl.trans hr).cons ⟨nofun, trivial⟩
  | .logical _ _ left right, r, pos, h => by
    have hl := left.resolve_checks h
    have hr := right.resolve_checks (h.of_pending hl.pending (left.resolve_mirrors _ h.mirrors))
    exact (hl.trans hr).cons ⟨nofun, trivial⟩
  | .group inner, _, _, h => (inner.resolve_checks h).cons ⟨nofun, trivial⟩
  | .var id name, _, _, h => readVariable_checks h id name
  | .assign _ _ value, _, _, h => by
    have hv := value.resolve_checks h
    exact Checks.cons ⟨by simpa [Expr.resolve] using hv.errors, by simpa [Expr.resolve] using hv.pending⟩ ⟨nofun, trivial⟩
  | .call callee _ arguments, r, pos, h => by
    have hc := callee.resolve_checks h
    have ha := resolveExprs_checks arguments (h.of_pending hc.pending (callee.resolve_mirrors _ h.mirrors))
    exact (hc.trans ha).cons ⟨nofun, trivial⟩
  | .lambda _ routine, _, _, h => (routine.resolve_checks (h.enter .function)).cons ⟨nofun, trivial⟩
  | .get object _, _, _, h => (object.resolve_checks h).cons ⟨nofun, trivial⟩
  | .set object _ value, r, pos, h => by
    have ho := object.resolve_checks h
    have hv := value.resolve_checks (h.of_pending ho.pending (object.resolve_mirrors _ h.mirrors))
    exact (ho.trans hv).cons ⟨nofun, trivial⟩
  | .this id line, _, _, _ => readThis_checks id line
  | .super id line method, _, _, _ => readSuper_checks id line method

theorem resolveExprs_checks : ∀ (es : List Expr) {r : Resolution} {pos : Position}, Follows r pos →
    Checks r (resolveExprs es pos.context r) (nodesExprs es pos)
  | [], r, _, _ => .refl r
  | e :: es, r, pos, h => by
    have he := e.resolve_checks h
    exact he.trans (resolveExprs_checks es (h.of_pending he.pending (e.resolve_mirrors _ h.mirrors)))

theorem Stmt.resolve_enacts : ∀ (st : Stmt) {r : Resolution} {pos : Position}, Follows r pos → pos.Settled →
    Enacts r (st.resolve pos.context r) pos st.declares (st.nodes pos)
  | .expr e, _, pos, h, _ => ((e.resolve_checks h).enacts pos).cons ⟨nofun, trivial⟩
  | .print e, _, pos, h, _ => ((e.resolve_checks h).enacts pos).cons ⟨nofun, trivial⟩
  | .varDecl name none, _, _, h, hs => (introduce_enacts h hs name).cons ⟨nofun, trivial⟩
  | .varDecl name (some e), r, pos, h, hs => by
    have he := e.resolve_checks (h.enterInitializer hs name)
    have hc : (pos.enterInitializer name.text).context = pos.context := rfl
    refine Enacts.cons ⟨?_, ?_⟩ ⟨nofun, trivial⟩
    · rw [Stmt.resolve, define_errors, ← hc, he.errors, declare_errors h.mirrors, and_assoc]
      rfl
    · rw [Stmt.resolve, pending_define, ← hc, he.pending, pending_declare, pending_defined (h.settled hs)]
  | .block body, r, pos, h, _ => by
    have hm := openScope_mirrors (s := .ofBlock body) h.mirrors rfl
    have hb := resolveStmts_enacts body (.inside (pending_openScope r) rfl hm) (fun s hs => by cases hs; rfl)
    exact (hb.closed rfl (allowed_block_iff body pos)).enacts pos
  | .branch condition thenBranch none, r, pos, h, hs => by
    have hc := condition.resolve_checks h
    have ht := thenBranch.resolve_enacts (h.of_pending hc.pending (condition.resolve_mirrors _ h.mirrors)) hs
    exact (ht.after hc).cons ⟨nofun, trivial⟩
  | .branch condition thenBranch (some elseBranch), r, pos, h, hs => by
    have hc := condition.resolve_checks h
    have hfc := h.of_pending hc.pending (condition.resolve_mirrors _ h.mirrors)
    have ht := thenBranch.resolve_enacts hfc hs
    have hft := hfc.declared ht.pending (thenBranch.resolve_mirrors _ hfc.mirrors)
    have he := elseBranch.resolve_enacts hft (hs.declare _)
    exact ((ht.after hc).trans he).cons ⟨nofun, trivial⟩
  | .loop condition body, r, pos, h, hs => by
    have hc := condition.resolve_checks h
    have hb := body.resolve_enacts ((h.of_pending hc.pending (condition.resolve_mirrors _ h.mirrors)).enter .loop) hs
    exact (hb.leave.after hc).cons ⟨nofun, trivial⟩
  | .funDecl name routine, r, pos, h, hs => by
    have hn := introduce_enacts h hs name
    have hr := routine.resolve_checks ((h.declared hn.pending (introduce_mirrors h.mirrors name)).enter .function)
    exact (hn.trans (hr.enacts _)).cons ⟨nofun, trivial⟩
  | .returns form line none, r, pos, h, _ => by
    have hc : Checks r (r.checkReturn pos.context form line false) [(.stmt (.returns form line none), pos)] :=
      .one (checkReturn_errors pos form line none) (by simp [checkReturn])
    exact hc.enacts pos
  | .returns form line (some e), r, pos, h, _ => by
    have hc : Checks r (r.checkReturn pos.context form line true) [(.stmt (.returns form line (some e)), pos)] :=
      .one (checkReturn_errors pos form line (some e)) (by simp [checkReturn])
    have he := e.resolve_checks (h.of_pending hc.pending (by simpa [checkReturn] using h.mirrors))
    exact (hc.trans he).enacts pos
  | .breaks line, r, pos, h, _ => (checkBreak_checks r pos line).enacts pos
  | .classDecl name superclass methods statics, r, pos, h, hs => by
    let decl : Stmt := .classDecl name superclass methods statics
    let around := pos.declare [name.text]
    let members := around.derive decl superclass
    have hn := introduce_enacts h hs name
    have hfn : Follows (r.introduce name) around := h.declared hn.pending (introduce_mirrors h.mirrors name)
    have hp := readSuperclass_errors hfn name superclass methods statics pos
    have hfp : Follows ((r.introduce name).readSuperclass name superclass) members :=
      readSuperclass_follows hfn name superclass decl
    -- static members stand outside the scope of `this`
    have hst := resolveStatics_checks statics superclass hfp
    have hfs := hfp.of_pending hst.pending (resolveStatics_mirrors statics _ hfp.mirrors)
    have hfm : Follows _ (members.inside (.ofReceiver decl)) :=
      .inside (pending_openImplicit _ "this") rfl (openImplicit_mirrors hfs.mirrors rfl)
    have hm := resolveMethods_checks methods superclass hfm
    have hmembers := hst.trans hm.received
    refine ⟨?_, ?_⟩
    · rw [Stmt.resolve, closeSuperclass_errors]
      refine hmembers.errors.trans ?_
      rw [hp, hn.errors, Stmt.nodes]
      simp only [allAllowed_cons, allAllowed_append, allAllowed_nil, Stmt.declares]
      tauto
    · rw [Stmt.resolve, pending_closeSuperclass]
      refine (congrArg (fun ps => if superclass.isSome then ps.tail else ps) hmembers.pending).trans ?_
      simp only [pending_readSuperclass, ← hn.pending]
      split <;> rfl

theorem resolveStmts_enacts : ∀ (sts : List Stmt) {r : Resolution} {pos : Position}, Follows r pos → pos.Settled →
    Enacts r (resolveStmts sts pos.context r) pos (declaredBy sts) (nodesStmts sts pos)
  | [], r, pos, _, _ => (Checks.refl r).enacts pos
  | st :: sts, r, pos, h, hs => by
    have hst := st.resolve_enacts h hs
    exact hst.trans (resolveStmts_enacts sts (h.declared hst.pending (st.resolve_mirrors _ h.mirrors)) (hs.declare _))

theorem Routine.resolve_checks : ∀ (routine : Routine) {r : Resolution} {pos : Position}, Follows r pos →
    Checks r (routine.resolve pos.context r) (routine.nodes pos)
  | ⟨params, body⟩, r, pos, h => by
    -- the parameters are declared in the scope of the body, which is empty before
    let empty : LocalScope := { opener := .routine ⟨params, body⟩, names := [], pending := none }
    have hs : (pos.inside empty).Settled := fun s hs => by cases hs; rfl
    have hp := introduceAll_enacts params (.inside (pending_openScope r) rfl (openScope_mirrors (s := empty) h.mirrors rfl)) hs
    have hf : Follows (params.foldl introduce r.openScope) (pos.inside (.ofRoutine ⟨params, body⟩)) :=
      .inside hp.pending rfl (parameters_mirrors h.mirrors ⟨params, body⟩)
    have hb := resolveStmts_enacts body hf (fun s hs => by cases hs; rfl)
    have hd : (pos.inside empty).declare (params.map Name.text).reverse = pos.inside (.ofRoutine ⟨params, body⟩) := by
      simp [Position.declare, Position.inside, Scopes.declare, LocalScope.ofRoutine, empty]
    rw [← hd] at hb
    have hr := hp.trans hb
    rw [hd] at hr
    exact hr.closed rfl (allowed_routine_iff params body pos)

theorem Method.resolve_checks : ∀ (m : Method) (superclass : Option Reference) (isStatic : Bool) (body : BodyKind)
    (ctx : Context) {r : Resolution} {pos : Position}, Follows r pos →
    ctx.enter body = (Enclosure.member superclass isStatic m).context pos.context →
    Checks r (m.resolve body ctx r) (m.nodes superclass isStatic pos)
  | ⟨name, isGetter, routine⟩, superclass, isStatic, body, ctx, r, pos, h, hc => by
    rw [Method.resolve, hc]
    exact routine.resolve_checks (h.enter (.member superclass isStatic ⟨name, isGetter, routine⟩))

theorem resolveMethods_checks : ∀ (ms : List Method) (superclass : Option Reference) {r : Resolution} {pos : Position},
    Follows r pos → Checks r (resolveMethods ms (pos.context.methods superclass) r) (nodesMethods ms superclass false pos)
  | [], _, r, _, _ => .refl r
  | m :: ms, superclass, r, pos, h => by
    have hm := m.resolve_checks superclass false m.bodyKind (pos.context.methods superclass) h rfl
    exact hm.trans (resolveMethods_checks ms superclass (h.of_pending hm.pending (m.resolve_mirrors _ _ h.mirrors)))

theorem resolveStatics_checks : ∀ (ms : List Method) (superclass : Option Reference) {r : Resolution} {pos : Position},
    Follows r pos → Checks r (resolveStatics ms (pos.context.statics superclass) r) (nodesMethods ms superclass true pos)
  | [], _, r, _, _ => .refl r
  | m :: ms, superclass, r, pos, h => by
    have hm := m.resolve_checks superclass true .function (pos.context.statics superclass) h rfl
    exact hm.trans (resolveStatics_checks ms superclass (h.of_pending hm.pending (m.resolve_mirrors _ _ h.mirrors)))

end

/-- The resolution of a program finds no error just if the program keeps the rules of scopes. -/
theorem accepts_iff_lawful (program : List Stmt) : (resolveProgram program).errors = [] ↔ Lawful program := by
  have hf : Follows {} {} := ⟨.nil, fun x => by simp [inOwnInitializer, Position.Initializes]⟩
  have h := (resolveStmts_enacts program hf Position.settled_global).errors
  rw [lawful_iff_allAllowed]
  exact h.trans ⟨fun h => h.2.2, fun h => ⟨rfl, Scopes.new_global _, h⟩⟩

end Lox
