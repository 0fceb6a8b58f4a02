import Lox.Proofs.Console.Lines
import Lox.Proofs.Evaluation.Ordered

/-!
# What programs read

Nothing but a call of `read` takes lines from the input, and each takes one. So what an evaluation takes is a sequence of lines,
and each of them is the one that a call of `read` has got.
-/

namespace Lox

/-- The program takes those lines, one after the other. At the end of the input there is none to take. -/
inductive Input.Hands : Input → List (List UInt8) → Input → Prop
  | done {i} : Hands i [] i
  | line {i lines j} : i.programLine.1 ≠ [] → Hands i.programLine.2 lines j → Hands i (i.programLine.1 :: lines) j

namespace Input.Hands

variable {i j k : Input} {lines lines' : List (List UInt8)}

theorem trans (h : i.Hands lines j) (h' : j.Hands lines' k) : i.Hands (lines ++ lines') k := by
  induction h with
  | done => exact h'
  | line hne _ ih => exact .line hne (ih h')

theorem eq_of_nil (h : i.Hands [] j) : j = i := by
  cases h
  rfl

/-- The program takes octets over from the prompt. Its lines begin what it has then, and it keeps the rest. -/
theorem parts (h : i.Hands lines j) : ∃ taken, i.pending = taken ++ j.pending ∧ i.own ++ taken = lines.flatten ++ j.own := by
  induction h with
  | done => exact ⟨[], rfl, List.append_nil _⟩
  | @line i lines j _ _ ih =>
    obtain ⟨taken, hpending, hown⟩ := i.programLine_parts
    obtain ⟨more, hpending', hown'⟩ := ih
    refine ⟨taken ++ more, by rw [hpending, hpending', List.append_assoc], ?_⟩
    rw [← List.append_assoc, hown, List.append_assoc, hown', List.flatten_cons, List.append_assoc]

/-- Nothing is left for the prompt once a program has taken a line from it, if all of the stream has been fetched. -/
theorem drained (h : i.Hands lines j) (hown : i.own = []) (hstream : i.stream = []) (hne : lines ≠ []) : j.pending = [] := by
  have empty : ∀ {i lines j}, Hands i lines j → i.shared = [] → i.stream = [] → j.pending = [] := by
    intro i lines j h hshared hstream
    obtain ⟨taken, hpending, -⟩ := h.parts
    rw [pending, hshared, hstream] at hpending
    exact (List.append_eq_nil_iff.mp hpending.symm).2
  cases h with
  | done => exact absurd rfl hne
  | line _ h =>
    have hnone : splitLine? i.own = none := by rw [hown]; rfl
    refine empty h ?_ ?_
    · rw [programLine_of_none i hnone]
    · rw [programLine_of_none i hnone]
      exact takeLine_drains _ _ (.inl hstream)

end Input.Hands

/-- In the moment a call of `read` gets the line. -/
inductive Moment.Gets : Moment → List UInt8 → Prop
  | read {n args line m} : Gets ⟨n + 1, .apply (.native .read) args line, m⟩ m.input.programLine.1

section
variable {α β : Type} {comes : Moment → Prop} {m : Machine}

/-- Where it ends, the program has taken lines, each of them in a moment that the work comes to. -/
def Draws (comes : Moment → Prop) (m : Machine) (o : Outcome Machine Error α) : Prop :=
  ∀ m', o.EndsIn m' → ∃ lines, m.input.Hands lines m'.input ∧ ∀ line ∈ lines, ∃ y, comes y ∧ y.Gets line

namespace Draws

theorem same {o : Outcome Machine Error α} (h : ∀ m', o.EndsIn m' → m'.input = m.input) : Draws comes m o :=
  fun m' he => ⟨[], h m' he ▸ .done, nofun⟩

theorem pure (a : α) : Draws comes m ((Pure.pure a : Eval α) m) := same fun _ he => he ▸ rfl

theorem fail {line : Nat} {fault : RuntimeFault} : Draws comes m ((Eval.fail line fault : Eval α) m) :=
  same fun _ he => he ▸ rfl

theorem bind {body : Eval α} {next : α → Eval β} (h : Draws comes m (body m))
    (hn : ∀ a m', body m = .done a m' → Draws comes m' (next a m')) : Draws comes m ((body >>= next) m) := by
  intro m' he
  rw [Run.bind_apply] at he
  cases hb : body m with
  | exhausted => rw [hb] at he; exact he.elim
  | failed e m₁ => rw [hb] at h he; exact h m' he
  | done a m₁ =>
    rw [hb] at h he
    obtain ⟨lines, hhands, hgets⟩ := h m₁ rfl
    obtain ⟨lines', hhands', hgets'⟩ := hn a m₁ hb m' he
    exact ⟨lines ++ lines', hhands.trans hhands', List.forall_mem_append.mpr ⟨hgets, hgets'⟩⟩

theorem ite {c : Prop} [Decidable c] {f g : Eval α} (hf : c → Draws comes m (f m)) (hg : ¬ c → Draws comes m (g m)) :
    Draws comes m ((if c then f else g) m) := by
  split
  · exact hf ‹_›
  · exact hg ‹_›

theorem ofOption {o : Option β} {f : Eval α} {g : β → Eval α} (hf : o = none → Draws comes m (f m))
    (hg : ∀ b, o = some b → Draws comes m (g b m)) : Draws comes m (o.elim f g m) := by
  cases o with
  | none => exact hf rfl
  | some b => exact hg b rfl

theorem ofExcept {line : Nat} (e : Except RuntimeFault α) : Draws comes m (Eval.ofExcept line e m) := by
  cases e with
  | ok a => exact .pure a
  | error fault => exact .fail

theorem read (p : Machine → α) : Draws comes m (Run.read p m) := same fun _ he => he ▸ rfl

theorem within {env : Env} {body : Eval α} (h : Draws comes { m with env } (body { m with env })) :
    Draws comes m (Eval.within env body m) := by
  intro m' he
  unfold Eval.within at he
  cases hb : body { m with env } with
  | exhausted => rw [hb] at he; exact he.elim
  | failed e m₁ => rw [hb] at h he; cases he; exact h m₁ rfl
  | done a m₁ => rw [hb] at h he; cases he; exact h m₁ rfl

theorem asCall {line : Nat} {body : Eval α}
    (h : ¬ maxDepth ≤ m.depth → Draws comes { m with depth := m.depth + 1 } (body { m with depth := m.depth + 1 })) :
    Draws comes m (Eval.asCall line body m) := by
  intro m' he
  unfold Eval.asCall at he
  split at he
  · cases he; exact ⟨[], .done, nofun⟩
  · rename_i hd
    have h := h hd
    dsimp only at he
    cases hb : body { m with depth := m.depth + 1 } with
    | exhausted => rw [hb] at he; exact he.elim
    | failed e m₁ => rw [hb] at h he; cases he; exact h m₁ rfl
    | done a m₁ => rw [hb] at h he; cases he; exact h m₁ rfl

/-! ## Operations -/

theorem lookUp (id : NodeId) (name : Name) : Draws comes m (Eval.lookUp id name m) := by
  unfold Eval.lookUp
  dsimp only
  split <;> exact same fun _ he => he ▸ rfl

theorem setSlot {name : Name} {fault : RuntimeFault} (v : Value) (slot : Machine → Option FrameId) :
    Draws comes m ((Run.read slot >>= fun found => match found with
      | some frame => Eval.setVar frame name.text v
      | none => Eval.fail name.line fault : Eval Unit) m) := by
  refine bind (read slot) fun found m' _ => ?_
  cases found with
  | none => exact .fail
  | some f => exact same fun _ he => he ▸ rfl

theorem assign (id : NodeId) (name : Name) (v : Value) : Draws comes m (Eval.assign id name v m) := setSlot v _

theorem define (name : Name) (v : Value) : Draws comes m (Eval.define name v m) := setSlot v _

theorem overwrite (name : Name) (v : Value) : Draws comes m (Eval.overwrite name v m) := setSlot v _

theorem newFrame (frame : Frame) (env : Env) : Draws comes m (Eval.newFrame frame env m) := same fun _ he => he ▸ rfl

theorem freshSerial : Draws comes m (Eval.freshSerial m) := same fun _ he => he ▸ rfl

theorem newFunction (c : Closure) : Draws comes m (Eval.newFunction c m) := bind freshSerial fun _ _ _ => .pure _

theorem newInstance (c : Class) : Draws comes m (Eval.newInstance c m) := same fun _ he => he ▸ rfl

theorem setField (i : Instance) (name : String) (v : Value) : Draws comes m (Eval.setField i name v m) :=
  same fun _ he => he ▸ rfl

theorem bindThis (c : Closure) (i : Instance) : Draws comes m (Eval.bindThis c i m) := bind (newFrame _ _) fun _ _ _ => .pure _

theorem methodTable (env : Env) (initializers : Bool) : ∀ (ms : List Method) (table : Dict FunctionObject) {m : Machine},
    Draws comes m (Eval.methodTable env initializers ms table m)
  | [], table, _ => .pure table
  | _ :: ms, _, _ => bind (newFunction _) fun _ _ _ => methodTable env initializers ms _

theorem newClass (name : Name) (parent : Option Class) (ms ss : List Method) :
    Draws comes m (Eval.newClass name parent ms ss m) := by
  have member : Draws comes m (Eval.memberEnv parent m) := by
    refine bind (read _) fun here m' _ => ?_
    cases parent with
    | none => exact .pure here
    | some c => exact newFrame _ here
  exact bind member fun _ _ _ => bind (methodTable _ _ _ _) fun _ _ _ => bind (methodTable _ _ _ _) fun _ _ _ =>
    bind freshSerial fun _ _ _ => .pure _

theorem superClass (id : NodeId) (line : Nat) : Draws comes m (Eval.superClass id line m) := by
  unfold Eval.superClass
  split <;> exact same fun _ he => he ▸ rfl

theorem superReceiver (id : NodeId) (line : Nat) : Draws comes m (Eval.superReceiver id line m) := by
  unfold Eval.superReceiver
  dsimp only
  split <;> exact same fun _ he => he ▸ rfl

theorem receiverOf (c : Closure) : Draws comes m (Eval.receiverOf c m) := by
  unfold Eval.receiverOf
  split <;> exact same fun _ he => he ▸ rfl

theorem writeLine (text : String) (fault : OutputFault → Error) : Draws comes m (Eval.writeLine text fault m) := by
  unfold Eval.writeLine
  split <;> exact same fun _ he => he ▸ rfl

/-- Where a line is left, the call takes it; at the end of the input the call changes nothing. -/
theorem callNative {n : Nat} (fn : Native) (args : List Value) (line : Nat) :
    Draws (Moment.Reaches ⟨n + 1, .apply (.native fn) args line, m⟩) m (Eval.callNative fn args line m) := by
  unfold Eval.callNative
  split
  · exact same fun _ he => he ▸ rfl
  · intro m' he
    have hinput : m'.input = m.input.programLine.2 := by
      unfold Eval.readLine at he
      dsimp only at he
      split at he <;> rw [he]
    rw [hinput]
    by_cases hne : m.input.programLine.1 = []
    · exact ⟨[], by rw [Input.programLine_of_nil _ hne]; exact .done, nofun⟩
    · exact ⟨[_], .line hne .done, fun _ hl => List.mem_singleton.mp hl ▸ ⟨_, .refl, .read⟩⟩
  · exact bind (writeLine _ _) fun _ _ _ => .pure _
  · exact .pure _
  · exact .pure _

/-! ## Nested work -/

theorem imp {comes' : Moment → Prop} {o : Outcome Machine Error α} (h : Draws comes m o) (hc : ∀ y, comes y → comes' y) :
    Draws comes' m o := fun m' he =>
  have ⟨lines, hhands, hgets⟩ := h m' he
  ⟨lines, hhands, fun line hl => (hgets line hl).imp fun y h => ⟨hc y h.1, h.2⟩⟩

/-- What a nested moment takes, the moment around it takes. -/
theorem call {n : Nat} (ih : ∀ a m, Draws (Moment.Reaches ⟨n, a, m⟩) m (a.run n m)) {x : Moment} {a : Activity}
    (hc : x.Calls ⟨n, a, m⟩) : Draws x.Reaches m (a.run n m) := (ih a m).imp fun _ => .step hc

theorem step {n : Nat} {a : Activity} (h : Draws (Moment.Reaches ⟨n + 1, a, m⟩) m (a.step .resolved (fun a => a.run n) m)) :
    Draws (Moment.Reaches ⟨n + 1, a, m⟩) m (a.run (n + 1) m) := by
  rw [Activity.run_succ]
  exact h

end Draws

end

/-! ## Evaluations -/

section
open Draws Eval

variable {n : Nat} (ih : ∀ a m, Draws (Moment.Reaches ⟨n, a, m⟩) m (a.run n m))
include ih

theorem draws_expr (e : Expr) (m : Machine) :
    Draws (Moment.Reaches ⟨n + 1, .expr e, m⟩) m (Access.evaluate .resolved (fun a => a.run n) e m) := by
  cases e with
  | literal v => exact .pure _
  | unary op line e => exact .bind (.call ih .unary) fun _ _ _ => .ofExcept _
  | binary op line l r =>
    exact .bind (.call ih .binaryLeft) fun _ _ hv => .bind (.call ih (.binaryRight hv)) fun _ _ _ => .ofExcept _
  | logical op line l r =>
    exact .bind (.call ih .logicalLeft) fun _ _ hv => .ite (fun _ => .pure _)
      fun hs => .call ih (.logicalRight hv (by simpa using hs))
  | group e => exact .call ih .group
  | var id name => exact .lookUp id name
  | assign id name e => exact .bind (.call ih .assigned) fun _ _ _ => .bind (.assign id _ _) fun _ _ _ => .pure _
  | call f line args =>
    exact .bind (.call ih .callee) fun _ _ hv => .bind (.call ih (.arguments hv)) fun _ _ hvs => .call ih (.call hv hvs)
  | lambda line r => exact .bind (.read _) fun _ _ _ => .bind (.newFunction _) fun _ _ _ => .pure _
  | get e name => exact .bind (.call ih .getObject) fun _ _ hv => .call ih (.get hv)
  | set e name value => exact .bind (.call ih .setObject) fun _ _ hv => .call ih (.set hv)
  | this id line => exact .lookUp id _
  | super id line method => exact .call ih .super

theorem draws_exprs (es : List Expr) (m : Machine) :
    Draws (Moment.Reaches ⟨n + 1, .exprs es, m⟩) m (Access.evaluateAll (fun a => a.run n) es m) := by
  cases es with
  | nil => exact .pure _
  | cons e es => exact .bind (.call ih .head) fun _ _ hv => .bind (.call ih (.tail hv)) fun _ _ _ => .pure _

theorem draws_setProperty (object : Value) (name : Name) (e : Expr) (m : Machine) :
    Draws (Moment.Reaches ⟨n + 1, .setProperty object name e, m⟩) m
      (Access.setProperty (fun a => a.run n) object name e m) := by
  cases object with
  | object i => exact .bind (.call ih .fieldValue) fun _ _ _ => .bind (.setField _ _ _) fun _ _ _ => .pure _
  | _ => exact .fail

theorem draws_property (object : Value) (name : Name) (m : Machine) :
    Draws (Moment.Reaches ⟨n + 1, .property object name, m⟩) m (Access.property (fun a => a.run n) object name m) := by
  cases object with
  | object i =>
    refine .bind (.read _) fun found m' hfound => .ofOption (fun hv => .ofOption (fun _ => .fail) fun f hf => .call ih ?_)
      fun v _ => .pure v
    cases hfound
    exact .method hv hf
  | klass c =>
    exact .ofOption (fun _ => .fail) fun f hf => .ite (fun hg => .call ih (.staticGetter hf hg)) fun _ => .pure _
  | _ => exact .fail

theorem draws_superProperty (id : NodeId) (line : Nat) (method : Name) (m : Machine) :
    Draws (Moment.Reaches ⟨n + 1, .superProperty id line method, m⟩) m
      (Access.superProperty (fun a => a.run n) id line method m) := by
  refine .bind (.superClass id line) fun c m₁ hc => .bind (.superReceiver id line) fun i m₂ hi =>
    .ofOption (fun _ => .fail) fun f hf => .call ih ?_
  obtain rfl := superClass_same hc
  obtain rfl := superReceiver_same hi
  exact .superMethod hc hi hf

theorem draws_methodOf (c : Closure) (i : Instance) (line : Nat) (m : Machine) :
    Draws (Moment.Reaches ⟨n + 1, .methodOf c i line, m⟩) m (Access.methodOf (fun a => a.run n) c i line m) :=
  .bind (.bindThis c i) fun _ _ hbound => .ite (fun hg => .call ih (.getter hbound hg))
    fun _ => .bind .freshSerial fun _ _ _ => .pure _

theorem draws_call (v : Value) (args : List Value) (line : Nat) (m : Machine) :
    Draws (Moment.Reaches ⟨n + 1, .call v args line, m⟩) m (Access.call (fun a => a.run n) v args line m) :=
  .ofOption (fun _ => .fail) fun _ hf => .ite (fun hl => .call ih (.apply hf hl)) fun _ => .fail

theorem draws_apply (f : Callee) (args : List Value) (line : Nat) (m : Machine) :
    Draws (Moment.Reaches ⟨n + 1, .apply f args line, m⟩) m (Access.apply (fun a => a.run n) f args line m) := by
  cases f with
  | native fn => exact .callNative fn args line
  | closure c => exact .call ih .closure
  | construct c =>
    exact .bind (.newInstance c) fun i _ hi => .ofOption (fun _ => .pure _) fun f hf => .bind (.bindThis f.closure i)
      fun _ _ hbound => .bind (.call ih (.initializer hi hf hbound)) fun _ _ _ => .pure _

theorem draws_runBody (c : Closure) (args : List Value) (m : Machine) :
    Draws (Moment.Reaches ⟨n + 1, .runBody c args, m⟩) m (Access.runBody (fun a => a.run n) c args m) :=
  .bind (.newFrame _ _) fun _ _ hframe => .bind (.within (.call ih (.body hframe))) fun _ _ _ =>
    .ite (fun _ => .receiverOf c) fun _ => .pure _

theorem draws_stmt (st : Stmt) (m : Machine) :
    Draws (Moment.Reaches ⟨n + 1, .stmt st, m⟩) m (Access.execute (fun a => a.run n) st m) := by
  cases st with
  | expr e => exact .bind (.call ih .statement) fun _ _ _ => .pure _
  | print e => exact .bind (.call ih .print) fun _ _ _ => .bind (.writeLine _ _) fun _ _ _ => .pure _
  | varDecl name init =>
    cases init with
    | none => exact .bind (.define _ _) fun _ _ _ => .pure _
    | some e => exact .bind (.call ih .varDecl) fun _ _ _ => .bind (.define _ _) fun _ _ _ => .pure _
  | block body =>
    exact .bind (.read _) fun _ _ hhere => .bind (.newFrame _ _) fun _ _ hframe =>
      .within (.call ih (by cases hhere; exact .block hframe))
  | branch c st st' =>
    cases st' with
    | none =>
      exact .bind (.call ih .condition) fun _ _ hv => .ite (fun ht => .call ih (.thenBranch hv ht)) fun _ => .pure _
    | some st' =>
      exact .bind (.call ih .condition) fun _ _ hv => .ite (fun ht => .call ih (.thenBranch hv ht))
        fun hf => .call ih (.elseBranch hv (by simpa using hf))
  | loop c body => exact .call ih .loop
  | funDecl name r =>
    exact .bind (.read _) fun _ _ _ => .bind (.newFunction _) fun _ _ _ => .bind (.define _ _) fun _ _ _ => .pure _
  | returns form line e =>
    cases e with
    | none => exact .pure _
    | some e => exact .bind (.call ih .returns) fun _ _ _ => .pure _
  | breaks line => exact .pure _
  | classDecl name ref ms ss =>
    exact .bind (.call ih .superclass) fun _ _ _ => .bind (.define _ _) fun _ _ _ => .bind (.newClass _ _ _ _)
      fun _ _ _ => .bind (.overwrite _ _) fun _ _ _ => .pure _

omit ih in
theorem draws_superclass (cls : Name) (ref : Option Reference) (m : Machine) :
    Draws (Moment.Reaches ⟨n + 1, .superclass cls ref, m⟩) m (Access.evaluateSuperclass .resolved ref m) := by
  cases ref with
  | none => exact .pure _
  | some ref =>
    refine .bind (.lookUp ref.id ref.name) fun v _ _ => ?_
    cases v with
    | klass c => exact .pure _
    | _ => exact .fail

theorem draws_stmts (sts : List Stmt) (m : Machine) :
    Draws (Moment.Reaches ⟨n + 1, .stmts sts, m⟩) m (Access.executeAll (fun a => a.run n) sts m) := by
  cases sts with
  | nil => exact .pure _
  | cons st sts =>
    refine .bind (.call ih .first) fun flow _ hflow => ?_
    cases flow with
    | completed => exact .call ih (.rest hflow)
    | _ => exact .pure _

theorem draws_loop (c : Expr) (body : Stmt) (m : Machine) :
    Draws (Moment.Reaches ⟨n + 1, .loop c body, m⟩) m (Access.repeatWhile (fun a => a.run n) c body m) := by
  refine .bind (.call ih .loopCondition) fun v _ hv => .ite (fun ht => .bind (.call ih (.loopBody hv ht)) fun flow _ hflow => ?_)
    fun _ => .pure _
  cases flow with
  | completed => exact .call ih (.again hv ht hflow)
  | _ => exact .pure _

end

theorem draws : ∀ n a m, Draws (Moment.Reaches ⟨n, a, m⟩) m (Activity.run n a m)
  | 0, a, m => fun m' he => by
    rw [Activity.run_zero] at he
    exact he.elim
  | n + 1, a, m => by
    -- whatever the moment calls has less fuel
    have ih := draws n
    refine .step ?_
    cases a with
    | expr e => exact draws_expr ih e m
    | exprs es => exact draws_exprs ih es m
    | setProperty object name e => exact draws_setProperty ih object name e m
    | property object name => exact draws_property ih object name m
    | superProperty id line method => exact draws_superProperty ih id line method m
    | methodOf c i line => exact draws_methodOf ih c i line m
    | call v args line => exact draws_call ih v args line m
    | apply f args line => exact draws_apply ih f args line m
    | enter c args line => exact .asCall fun hd => .call ih (.enter hd)
    | runBody c args => exact draws_runBody ih c args m
    | stmt st => exact draws_stmt ih st m
    | superclass cls ref => exact draws_superclass cls ref m
    | stmts sts => exact draws_stmts ih sts m
    | loop c body => exact draws_loop ih c body m

end Lox
