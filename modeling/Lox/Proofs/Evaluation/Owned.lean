import Lox.Proofs.Evaluation.Frames
import Lox.Proofs.Evaluation.Objects
import Lox.Proofs.Evaluation.Resolved

/-!
# Frames belong to their scopes

Every evaluation leaves alone the names of all frames but the one in scope, and its own frames only gain what their scopes
declare. There is one lemma for each kind of work: what it nests in itself does so.
-/

namespace Lox

open Eval

namespace Keeps

variable {α : Type} {m : Machine} {may : FrameId → String → Prop} {n : Nat}

/-! ## Parts -/

/-- The nested work adds names only to the frame in scope. -/
theorem call (ih : ∀ a m, Moment.Keeps ⟨n, a, m⟩) (a : Activity)
    (hmay : ∀ f ∈ m.env.head?, ∀ x ∈ a.declares, may f x) : Keeps m may (· = ⟨n, a, m⟩) (fun _ _ => False) (a.run n m) :=
  Keeps.imp (ih a m) (fun f x hf => hmay f hf.1 x hf.2) (fun _ => id) fun _ _ => id

/-- The nested work is a part of the work, and stands in the same scope. -/
theorem part (ih : ∀ a m, Moment.Keeps ⟨n, a, m⟩) {a : Activity} {m' : Machine} (b : Activity) (henv : m'.env = m.env)
    (hb : ∀ x ∈ b.declares, x ∈ a.declares) :
    Keeps m' (Moment.May ⟨n + 1, a, m⟩) (· = ⟨n, b, m'⟩) (fun _ _ => False) (b.run n m') :=
  call ih b fun _ hf x hx => ⟨by rw [← henv]; exact hf, hb x hx⟩

/-- The work declares one of its names. -/
theorem defining {a : Activity} {m' : Machine} {name : Name} (v : Value) (henv : m'.env = m.env) (hn : name.text ∈ a.declares) :
    Quiet m' (Moment.May ⟨n + 1, a, m⟩) (Eval.define name v m') :=
  .define v fun _ hf => ⟨by rw [← henv]; exact hf, hn⟩

/-- The nested work declares nothing here. -/
theorem inner (ih : ∀ a m, Moment.Keeps ⟨n, a, m⟩) (a : Activity) (hd : a.declares = []) :
    Keeps m may (· = ⟨n, a, m⟩) (fun _ _ => False) (a.run n m) :=
  call ih a fun _ _ x hx => by rw [hd] at hx; cases hx

theorem pure (a : α) : Keeps m may (fun _ => False) (fun _ _ => False) ((Pure.pure a : Eval α) m) := .quiet (.pure a)

theorem ite {c : Prop} [Decidable c] {x y : Eval α} {calls calls' : Moment → Prop} {creates creates' : Env → Opener → Prop}
    (hx : Keeps m may calls creates (x m)) (hy : Keeps m may calls' creates' (y m)) :
    Keeps m may (fun z => c ∧ calls z ∨ ¬ c ∧ calls' z)
      (fun env opener => c ∧ creates env opener ∨ ¬ c ∧ creates' env opener) ((if c then x else y) m) := by
  split
  · rename_i hc
    exact hx.imp (fun _ _ => id) (fun z hz => (hz.resolve_right fun h => h.1 hc).2)
      fun _ _ hm => (hm.resolve_right fun h => h.1 hc).2
  · rename_i hc
    exact hy.imp (fun _ _ => id) (fun z hz => (hz.resolve_left fun h => hc h.1).2)
      fun _ _ hm => (hm.resolve_left fun h => hc h.1).2

theorem ofOption {β : Type} {o : Option β} {x : Eval α} {f : β → Eval α} {calls : Moment → Prop} {creates : Env → Opener → Prop}
    {calls' : β → Moment → Prop} {creates' : β → Env → Opener → Prop} (hx : Keeps m may calls creates (x m))
    (hf : ∀ b, Keeps m may (calls' b) (creates' b) (f b m)) :
    Keeps m may (fun z => o = none ∧ calls z ∨ ∃ b, o = some b ∧ calls' b z)
      (fun env opener => o = none ∧ creates env opener ∨ ∃ b, o = some b ∧ creates' b env opener)
      (o.elim x f m) := by
  cases o with
  | none => exact hx.imp (fun _ _ => id) (fun z hz => (hz.resolve_right nofun).2) fun _ _ hm => (hm.resolve_right nofun).2
  | some b =>
    refine (hf b).imp (fun _ _ => id) (fun z hz => ?_) fun env opener hm => ?_
    · obtain ⟨_, hb, hz⟩ := hz.resolve_left nofun
      cases hb; exact hz
    · obtain ⟨_, hb, hm⟩ := hm.resolve_left nofun
      cases hb; exact hm

theorem isSome_of_insert {x y : String} {v : Value} (h : ((Dict.empty.insert x v : Frame).get? y).isSome) : y = x := by
  rw [Dict.get?_insert] at h
  by_cases hy : y = x
  · exact hy
  · rw [if_neg hy] at h; cases h

/-- Nothing is added to the new frame. -/
theorem newFrame_quiet {frame : Frame} {outer : Env} {next : Env → Eval α} (h : ∀ env m may, Quiet m may (next env m)) :
    Keeps m may (fun _ => False) (fun env opener => (∀ x, (frame.get? x).isSome → x ∈ opener.declares) ∧
      ∃ m', Eval.newFrame frame outer m = .done env m') ((Eval.newFrame frame outer >>= next) m) := by
  refine (newFrame (fun _ => False) fun _ _ _ _ => .quiet (h _ _ _)).imp (fun _ _ => id) (fun _ hz => hz.elim) ?_
  rintro env opener ⟨hdeclares, m', hd⟩
  exact .inr ⟨m', hd, fun x hx => hx.elim (hdeclares x) False.elim⟩

theorem bindThis (c : Closure) (i : Instance) : Keeps m may (fun _ => False)
    (fun env opener => "this" ∈ opener.declares ∧ ∃ bound m', Eval.bindThis c i m = .done bound m' ∧ env = bound.env)
    (Eval.bindThis c i m) := by
  refine (newFrame_quiet fun _ _ _ => .pure _).imp (fun _ _ => id) (fun _ => id) ?_
  rintro env opener ⟨hdeclares, bound, m', hd, rfl⟩
  cases hd
  exact ⟨fun x hx => isSome_of_insert hx ▸ hdeclares, _, rfl⟩

theorem newClass (name : Name) (parent : Option Class) (ms ss : List Method) : Keeps m may (fun _ => False)
    (fun env opener => "super" ∈ opener.declares ∧ ∃ c m', parent = some c ∧
      Eval.newFrame (Dict.empty.insert "super" (.klass c)) m.env m = .done env m') (Eval.newClass name parent ms ss m) := by
  let members (env : Env) : Eval Class := do
    let methods ← methodTable env true ms .empty
    let statics ← methodTable env false ss .empty
    let serial ← freshSerial
    return { layer := { serial, name := name.text, methods, statics }, ancestors := (parent.map Class.lineage).getD [] }
  have quiet : ∀ env m may, Quiet m may (members env m) := fun env _ _ =>
    .bind (.methodTable _ _ _ _) fun _ _ _ _ => .bind (.methodTable _ _ _ _) fun _ _ _ _ => .bind .freshSerial
      fun _ _ _ _ => .pure _
  cases parent with
  | none =>
    refine (Keeps.quiet (quiet m.env m may)).imp (fun _ _ => id) (fun _ => id) ?_
    rintro env opener ⟨-, c, m', hc, -⟩
    cases hc
  | some c =>
    have h : Keeps m may _ _ ((Eval.newFrame (Dict.empty.insert "super" (.klass c)) m.env >>= members) m) := newFrame_quiet quiet
    refine h.imp (fun _ _ => id) (fun _ => id) ?_
    rintro env opener ⟨hdeclares, c', m', hc, hd⟩
    cases hc
    exact ⟨fun x hx => isSome_of_insert hx ▸ hdeclares, m', hd⟩

/-- All of a moment, from its step. -/
theorem step {a : Activity} {calls : Moment → Prop} {creates : Env → Opener → Prop}
    (h : Keeps m (Moment.May ⟨n + 1, a, m⟩) calls creates (a.step .resolved (fun a => a.run n) m))
    (hcalls : ∀ y, Moment.Calls ⟨n + 1, a, m⟩ y → calls y)
    (hcreates : ∀ env opener, Moment.Creates ⟨n + 1, a, m⟩ env opener → creates env opener) :
    Moment.Keeps ⟨n + 1, a, m⟩ := by
  refine moment ?_ hcalls hcreates
  rw [Moment.outcome, Activity.run_succ]
  exact h

end Keeps

/-! ## Expressions -/

section
open Keeps

variable {n : Nat} (ih : ∀ a m, Moment.Keeps ⟨n, a, m⟩)
include ih

theorem keeps_expr (e : Expr) (m : Machine) : Moment.Keeps ⟨n + 1, .expr e, m⟩ := by
  cases e with
  | literal v => exact .step (.pure _) (fun _ hc => by cases hc) fun _ _ hc => by cases hc
  | unary op line e =>
    refine .step (.bind (.inner ih (.expr e) rfl) fun _ _ _ _ => .quiet (.ofExcept _)) (fun _ hc => ?_) fun _ _ hc => by cases hc
    cases hc with
    | unary => exact .inl rfl
  | binary op line l r =>
    refine .step (.bind (.inner ih (.expr l) rfl) fun _ _ _ _ => .bind (.inner ih (.expr r) rfl) fun _ _ _ _ =>
      .quiet (.ofExcept _)) (fun _ hc => ?_) fun _ _ hc => by cases hc
    cases hc with
    | binaryLeft => exact .inl rfl
    | binaryRight hv => exact .inr ⟨_, _, hv, .inl rfl⟩
  | logical op line l r =>
    refine .step (.bind (.inner ih (.expr l) rfl) fun _ _ _ _ => .ite (.pure _) (.inner ih (.expr r) rfl)) (fun _ hc => ?_)
      fun _ _ hc => by cases hc
    cases hc with
    | logicalLeft => exact .inl rfl
    | logicalRight hv hs => exact .inr ⟨_, _, hv, .inr ⟨by simp [hs], rfl⟩⟩
  | group e =>
    refine .step (.inner ih (.expr e) rfl) (fun _ hc => ?_) fun _ _ hc => by cases hc
    cases hc with
    | group => rfl
  | var id name => exact .step (.quiet (.lookUp id name)) (fun _ hc => by cases hc) fun _ _ hc => by cases hc
  | assign id name e =>
    refine .step (.bind (.inner ih (.expr e) rfl) fun _ _ _ _ => .quiet (.bind (.assign _ _ _) fun _ _ _ _ => .pure _))
      (fun _ hc => ?_) fun _ _ hc => by cases hc
    cases hc with
    | assigned => exact .inl rfl
  | call f line args =>
    refine .step (.bind (.inner ih (.expr f) rfl) fun v _ _ _ => .bind (.inner ih (.exprs args) rfl) fun vs _ _ _ =>
      .inner ih (.call v vs line) rfl) (fun _ hc => ?_) fun _ _ hc => by cases hc
    cases hc with
    | callee => exact .inl rfl
    | arguments hv => exact .inr ⟨_, _, hv, .inl rfl⟩
    | call hv hvs => exact .inr ⟨_, _, hv, .inr ⟨_, _, hvs, rfl⟩⟩
  | lambda line r =>
    exact .step (.quiet (.bind (.read _) fun _ _ _ _ => .bind (.newFunction _) fun _ _ _ _ => .pure _))
      (fun _ hc => by cases hc) fun _ _ hc => by cases hc
  | get e name =>
    refine .step (.bind (.inner ih (.expr e) rfl) fun v _ _ _ => .inner ih (.property v name) rfl) (fun _ hc => ?_)
      fun _ _ hc => by cases hc
    cases hc with
    | getObject => exact .inl rfl
    | get hv => exact .inr ⟨_, _, hv, rfl⟩
  | set e name value =>
    refine .step (.bind (.inner ih (.expr e) rfl) fun v _ _ _ => .inner ih (.setProperty v name value) rfl) (fun _ hc => ?_)
      fun _ _ hc => by cases hc
    cases hc with
    | setObject => exact .inl rfl
    | set hv => exact .inr ⟨_, _, hv, rfl⟩
  | this id line => exact .step (.quiet (.lookUp id _)) (fun _ hc => by cases hc) fun _ _ hc => by cases hc
  | super id line method =>
    refine .step (.inner ih (.superProperty id line method) rfl) (fun _ hc => ?_) fun _ _ hc => by cases hc
    cases hc with
    | super => rfl

theorem keeps_exprs (es : List Expr) (m : Machine) : Moment.Keeps ⟨n + 1, .exprs es, m⟩ := by
  cases es with
  | nil => exact .step (.pure _) (fun _ hc => by cases hc) fun _ _ hc => by cases hc
  | cons e es =>
    refine .step (.bind (.inner ih (.expr e) rfl) fun _ _ _ _ => .bind (.inner ih (.exprs es) rfl) fun _ _ _ _ => .pure _)
      (fun _ hc => ?_) fun _ _ hc => by cases hc
    cases hc with
    | head => exact .inl rfl
    | tail hv => exact .inr ⟨_, _, hv, .inl rfl⟩

/-! ## Properties -/

theorem keeps_setProperty (object : Value) (name : Name) (e : Expr) (m : Machine) :
    Moment.Keeps ⟨n + 1, .setProperty object name e, m⟩ := by
  cases object with
  | object i =>
    refine .step (.bind (.inner ih (.expr e) rfl) fun _ _ _ _ => .quiet (.bind (.setField _ _ _) fun _ _ _ _ => .pure _))
      (fun _ hc => ?_) fun _ _ hc => by cases hc
    cases hc with
    | fieldValue => exact .inl rfl
  | _ => exact .step (.quiet .fail) (fun _ hc => by cases hc) fun _ _ hc => by cases hc

theorem keeps_property (object : Value) (name : Name) (m : Machine) : Moment.Keeps ⟨n + 1, .property object name, m⟩ := by
  cases object with
  | object i =>
    refine .step (.bind (.quiet (.read _)) fun found _ _ _ => .ofOption (.ofOption (.quiet .fail) fun (f : FunctionObject) =>
      .inner ih (.methodOf f.closure i name.line) rfl) fun _ => .pure _) (fun _ hc => ?_) fun _ _ hc => by cases hc
    cases hc with
    | method hv hf => exact .inr ⟨_, _, rfl, .inl ⟨hv, .inr ⟨_, hf, rfl⟩⟩⟩
  | klass c =>
    refine .step (.ofOption (.quiet .fail) fun (f : FunctionObject) => .ite (.inner ih (.enter f.closure [] name.line) rfl) (.pure _))
      (fun _ hc => ?_) fun _ _ hc => by cases hc
    cases hc with
    | staticGetter hf hg => exact .inr ⟨_, hf, .inl ⟨hg, rfl⟩⟩
  | _ => exact .step (.quiet .fail) (fun _ hc => by cases hc) fun _ _ hc => by cases hc

theorem keeps_superProperty (id : NodeId) (line : Nat) (method : Name) (m : Machine) :
    Moment.Keeps ⟨n + 1, .superProperty id line method, m⟩ := by
  refine .step (.bind (.quiet (.superClass id line)) fun c _ _ _ => .bind (.quiet (.superReceiver id line)) fun i _ _ _ =>
    .ofOption (.quiet .fail) fun f => .inner ih (.methodOf f.closure i method.line) rfl) (fun _ hc => ?_)
    fun _ _ hc => by cases hc
  cases hc with
  | superMethod hc hi hf => exact .inr ⟨_, _, hc, .inr ⟨_, _, hi, .inr ⟨_, hf, rfl⟩⟩⟩

theorem keeps_methodOf (c : Closure) (i : Instance) (line : Nat) (m : Machine) :
    Moment.Keeps ⟨n + 1, .methodOf c i line, m⟩ := by
  refine .step (.bind (.bindThis c i) fun bound _ _ _ => .ite (.inner ih (.enter bound [] line) rfl)
    (.quiet (.bind .freshSerial fun _ _ _ _ => .pure _))) (fun _ hc => ?_) fun _ _ hc => ?_
  · cases hc with
    | getter hbound hg => exact .inr ⟨_, _, hbound, .inl ⟨hg, rfl⟩⟩
  · cases hc with
    | bound hbound _ => exact .inl ⟨.head _, _, _, hbound, rfl⟩

/-! ## Calls -/

theorem keeps_call (v : Value) (args : List Value) (line : Nat) (m : Machine) : Moment.Keeps ⟨n + 1, .call v args line, m⟩ := by
  refine .step (.ofOption (.quiet .fail) fun f => .ite (.inner ih (.apply f args line) rfl) (.quiet .fail)) (fun _ hc => ?_)
    fun _ _ hc => by cases hc
  cases hc with
  | apply hf hl => exact .inr ⟨_, hf, .inl ⟨hl, rfl⟩⟩

theorem keeps_apply (f : Callee) (args : List Value) (line : Nat) (m : Machine) :
    Moment.Keeps ⟨n + 1, .apply f args line, m⟩ := by
  cases f with
  | native fn => exact .step (.quiet (.callNative fn args line)) (fun _ hc => by cases hc) fun _ _ hc => by cases hc
  | closure c =>
    refine .step (.inner ih (.enter c args line) rfl) (fun _ hc => ?_) fun _ _ hc => by cases hc
    cases hc with
    | closure => rfl
  | construct c =>
    refine .step (.bind (.quiet (.newInstance c)) fun i _ _ _ => .ofOption (.pure _) fun f => .bind (.bindThis f.closure i)
      fun bound _ _ _ => .bind (.inner ih (.enter bound args line) rfl) fun _ _ _ _ => .pure _) (fun _ hc => ?_)
      fun _ _ hc => ?_
    · cases hc with
      | initializer hi hf hbound => exact .inr ⟨_, _, hi, .inr ⟨_, hf, .inr ⟨_, _, hbound, .inl rfl⟩⟩⟩
    · cases hc with
      | initializer hi hf hbound _ => exact .inr ⟨_, _, hi, .inr ⟨_, hf, .inl ⟨.head _, _, _, hbound, rfl⟩⟩⟩

theorem keeps_enter (c : Closure) (args : List Value) (line : Nat) (m : Machine) :
    Moment.Keeps ⟨n + 1, .enter c args line, m⟩ := by
  refine .step (.asCall fun _ => .inner ih (.runBody c args) rfl) (fun _ hc => ?_) fun _ _ hc => by cases hc
  cases hc with
  | enter hd => exact ⟨hd, rfl⟩

theorem keeps_runBody (c : Closure) (args : List Value) (m : Machine) : Moment.Keeps ⟨n + 1, .runBody c args, m⟩ := by
  refine .step (.newFrame (· ∈ declaredBy c.routine.body) fun env m' _ hhead => .bind
    (.within (.call ih (.stmts c.routine.body) fun f hf x hx => .inr ⟨?_, hx⟩))
    fun _ _ _ _ => .ite (.quiet (.receiverOf c)) (.pure _)) (fun _ hc => ?_) fun _ _ hc => ?_
  · exact Option.some.inj (hf.symm.trans hhead)
  · cases hc with
    | body hframe => exact ⟨_, _, hframe, .inl rfl⟩
  · cases hc with
    | body hframe => exact .inr ⟨_, hframe, fun x hx => List.mem_append.mpr (hx.imp_left isSome_of_argumentFrame)⟩

/-! ## Statements -/

theorem keeps_stmt (st : Stmt) (m : Machine) : Moment.Keeps ⟨n + 1, .stmt st, m⟩ := by
  cases st with
  | expr e =>
    refine .step (.bind (.inner ih (.expr e) rfl) fun _ _ _ _ => .pure _) (fun _ hc => ?_) fun _ _ hc => by cases hc
    cases hc with
    | statement => exact .inl rfl
  | print e =>
    refine .step (.bind (.inner ih (.expr e) rfl) fun _ _ _ _ => .quiet (.bind (.writeLine _ _) fun _ _ _ _ => .pure _))
      (fun _ hc => ?_) fun _ _ hc => by cases hc
    cases hc with
    | print => exact .inl rfl
  | varDecl name init =>
    cases init with
    | none =>
      exact .step (.quiet (.bind (defining _ rfl (.head _)) fun _ _ _ _ => .pure _)) (fun _ hc => by cases hc)
        fun _ _ hc => by cases hc
    | some e =>
      refine .step (.bind (.inner ih (.expr e) rfl) fun _ _ _ henv => .quiet (.bind (defining _ henv (.head _))
        fun _ _ _ _ => .pure _)) (fun _ hc => ?_) fun _ _ hc => by cases hc
      cases hc with
      | varDecl => exact .inl rfl
  | block body =>
    refine .step (.bind (.quiet (.read _)) fun here _ _ _ => .newFrame (· ∈ declaredBy body) fun env m' _ hhead =>
      .within (.call ih (.stmts body) fun f hf x hx => .inr ⟨?_, hx⟩)) (fun _ hc => ?_) fun _ _ hc => ?_
    · exact Option.some.inj (hf.symm.trans hhead)
    · cases hc with
      | block hframe => exact .inr ⟨_, _, rfl, _, _, hframe, rfl⟩
    · cases hc with
      | block hframe => exact .inr ⟨_, _, rfl, .inr ⟨_, hframe, fun x hx => hx.elim (fun hx => by cases hx) id⟩⟩
  | branch c st st' =>
    cases st' with
    | none =>
      refine .step (.bind (.inner ih (.expr c) rfl) fun _ _ _ henv => .ite (.part ih (.stmt st) henv fun _ => id) (.pure _))
        (fun _ hc => ?_) fun _ _ hc => by cases hc
      cases hc with
      | condition => exact .inl rfl
      | thenBranch hv ht => exact .inr ⟨_, _, hv, .inl ⟨ht, rfl⟩⟩
    | some st' =>
      refine .step (.bind (.inner ih (.expr c) rfl) fun _ _ _ henv => .ite
        (.part ih (.stmt st) henv fun _ => List.mem_append_right _) (.part ih (.stmt st') henv fun _ => List.mem_append_left _))
        (fun _ hc => ?_) fun _ _ hc => by cases hc
      cases hc with
      | condition => exact .inl rfl
      | thenBranch hv ht => exact .inr ⟨_, _, hv, .inl ⟨ht, rfl⟩⟩
      | elseBranch hv hf => exact .inr ⟨_, _, hv, .inr ⟨by simp [hf], rfl⟩⟩
  | loop c body =>
    refine .step (.part ih (.loop c body) rfl fun _ => id) (fun _ hc => ?_) fun _ _ hc => by cases hc
    cases hc with
    | loop => rfl
  | funDecl name r =>
    exact .step (.quiet (.bind (.read _) fun _ _ _ henv => .bind (.newFunction _) fun _ _ _ henv' =>
      .bind (defining _ (henv'.trans henv) (.head _)) fun _ _ _ _ => .pure _)) (fun _ hc => by cases hc)
      fun _ _ hc => by cases hc
  | returns form line e =>
    cases e with
    | none => exact .step (.pure _) (fun _ hc => by cases hc) fun _ _ hc => by cases hc
    | some e =>
      refine .step (.bind (.inner ih (.expr e) rfl) fun _ _ _ _ => .pure _) (fun _ hc => ?_) fun _ _ hc => by cases hc
      cases hc with
      | returns => exact .inl rfl
  | breaks line => exact .step (.pure _) (fun _ hc => by cases hc) fun _ _ hc => by cases hc
  | classDecl name ref ms ss =>
    refine .step (.bind (.inner ih (.superclass name ref) rfl) fun parent _ _ henv => .bind
      (.quiet (defining _ henv (.head _))) fun _ _ _ _ => .bind (.newClass name parent ms ss) fun _ _ _ _ =>
        .quiet (.bind (.overwrite _ _) fun _ _ _ _ => .pure _)) (fun _ hc => ?_) fun _ _ hc => ?_
    · cases hc with
      | superclass => exact .inl rfl
    · cases hc with
      | derived hc hd hframe => exact .inr ⟨_, _, hc, .inr ⟨_, _, hd, .inl ⟨.head _, _, _, rfl, hframe⟩⟩⟩

omit ih in
theorem keeps_superclass (cls : Name) (ref : Option Reference) (m : Machine) :
    Moment.Keeps ⟨n + 1, .superclass cls ref, m⟩ := by
  cases ref with
  | none => exact .step (.pure _) (fun _ hc => by cases hc) fun _ _ hc => by cases hc
  | some ref =>
    refine .step (.quiet (.bind (.lookUp ref.id ref.name) fun v _ _ _ => ?_)) (fun _ hc => by cases hc) fun _ _ hc => by cases hc
    cases v with
    | klass c => exact .pure _
    | _ => exact .fail

theorem keeps_stmts (sts : List Stmt) (m : Machine) : Moment.Keeps ⟨n + 1, .stmts sts, m⟩ := by
  cases sts with
  | nil => exact .step (.pure _) (fun _ hc => by cases hc) fun _ _ hc => by cases hc
  | cons st sts =>
    have rest : ∀ flow m', m'.env = m.env → Keeps m' (Moment.May ⟨n + 1, .stmts (st :: sts), m⟩)
        (fun z => flow = .completed ∧ z = ⟨n, .stmts sts, m'⟩) (fun _ _ => False)
        (Access.goOn (fun a => a.run n) sts flow m') := by
      intro flow m' henv
      cases flow with
      | completed =>
        have h := Keeps.part ih (a := .stmts (st :: sts)) (.stmts sts) henv fun _ => List.mem_append_left _
        exact h.imp (fun _ _ => id) (fun _ hz => hz.2) fun _ _ => id
      | _ => exact (Keeps.pure _).imp (fun _ _ => id) (fun _ hz => nomatch hz.1) fun _ _ => id
    refine .step (.bind (.part ih (.stmt st) rfl fun _ => List.mem_append_right _) fun flow m' _ henv => rest flow m' henv)
      (fun _ hc => ?_) fun _ _ hc => by cases hc
    cases hc with
    | first => exact .inl rfl
    | rest hflow => exact .inr ⟨_, _, hflow, rfl, rfl⟩

theorem keeps_loop (c : Expr) (body : Stmt) (m : Machine) : Moment.Keeps ⟨n + 1, .loop c body, m⟩ := by
  have again : ∀ flow m', m'.env = m.env → Keeps m' (Moment.May ⟨n + 1, .loop c body, m⟩)
      (fun z => flow = .completed ∧ z = ⟨n, .loop c body, m'⟩) (fun _ _ => False)
      (Access.turnAround (fun a => a.run n) c body flow m') := by
    intro flow m' henv
    cases flow with
    | completed => exact (Keeps.part ih (.loop c body) henv fun _ => id).imp (fun _ _ => id) (fun _ hz => hz.2) fun _ _ => id
    | _ => exact (Keeps.pure _).imp (fun _ _ => id) (fun _ hz => nomatch hz.1) fun _ _ => id
  refine .step (.bind (.inner ih (.expr c) rfl) fun _ _ _ henv => .ite (.bind (.part ih (.stmt body) henv fun _ => id)
    fun flow m' _ henv' => again flow m' (henv'.trans henv)) (.pure _)) (fun _ hc => ?_) fun _ _ hc => by cases hc
  cases hc with
  | loopCondition => exact .inl rfl
  | loopBody hv ht => exact .inr ⟨_, _, hv, .inl ⟨ht, .inl rfl⟩⟩
  | again hv ht hflow => exact .inr ⟨_, _, hv, .inl ⟨ht, .inr ⟨_, _, hflow, rfl, rfl⟩⟩⟩

end

/-- Whatever an evaluation comes to, frames gain no names but those of their scopes. -/
theorem Moment.keeps : ∀ n a m, Moment.Keeps ⟨n, a, m⟩
  | 0, a, m => by
    have h : Quiet m (Moment.May ⟨0, a, m⟩) (Moment.outcome ⟨0, a, m⟩) := by
      rw [Moment.outcome, Activity.run_zero]
      exact nofun
    exact (Keeps.quiet h).moment (fun _ hc => by cases hc) fun _ _ hc => by cases hc
  | n + 1, a, m => by
    have ih := Moment.keeps n
    cases a with
    | expr e => exact keeps_expr ih e m
    | exprs es => exact keeps_exprs ih es m
    | setProperty object name e => exact keeps_setProperty ih object name e m
    | property object name => exact keeps_property ih object name m
    | superProperty id line method => exact keeps_superProperty ih id line method m
    | methodOf c i line => exact keeps_methodOf ih c i line m
    | call v args line => exact keeps_call ih v args line m
    | apply f args line => exact keeps_apply ih f args line m
    | enter c args line => exact keeps_enter ih c args line m
    | runBody c args => exact keeps_runBody ih c args m
    | stmt st => exact keeps_stmt ih st m
    | superclass cls ref => exact keeps_superclass cls ref m
    | stmts sts => exact keeps_stmts ih sts m
    | loop c body => exact keeps_loop ih c body m

end Lox
