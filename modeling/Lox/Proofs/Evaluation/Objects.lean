import Lox.Proofs.Evaluation.Operations

/-!
# What making frames, functions and classes keeps

A new frame is an activation of the scope that it was created for, and the functions of a class
declaration see the scopes around its members.
-/

namespace Lox

/-! ## Frames of calls -/

theorem foldl_insert_mem : ∀ (ps : List (Name × Value)) (frame : Frame) {x : String} {v : Value},
    (ps.foldl (fun frame (p, v) => frame.insert p.text v) frame).get? x = some v →
    frame.get? x = some v ∨ ∃ p, (p, v) ∈ ps ∧ p.text = x
  | [], _, _, _, h => .inl h
  | (p, u) :: ps, frame, x, v, h => by
    rcases foldl_insert_mem ps (frame.insert p.text u) h with h | ⟨q, hq, hx⟩
    · rw [Dict.get?_insert] at h
      split at h
      · rename_i hx
        cases h; exact .inr ⟨p, .head _, hx.symm⟩
      · exact .inl h
    · exact .inr ⟨q, .tail _ hq, hx⟩

theorem foldl_insert_isSome : ∀ (ps : List (Name × Value)) (frame : Frame) {x : String},
    (frame.get? x).isSome ∨ x ∈ ps.map (·.1.text) →
    ((ps.foldl (fun frame (p, v) => frame.insert p.text v) frame).get? x).isSome
  | [], _, _, h => h.resolve_right (by simp)
  | (p, u) :: ps, frame, x, h => by
    refine foldl_insert_isSome ps (frame.insert p.text u) ?_
    rw [Dict.get?_insert]
    by_cases hx : x = p.text
    · simp [hx]
    · simpa [hx] using h

theorem mem_of_argumentFrame {params : List Name} {arguments : List Value} {x : String} {v : Value}
    (h : (argumentFrame params arguments).get? x = some v) : v ∈ arguments := by
  rcases foldl_insert_mem _ _ h with h | ⟨p, hp, -⟩
  · cases h
  · exact (List.of_mem_zip hp).2

/-- It binds nothing but parameters. -/
theorem isSome_of_argumentFrame {params : List Name} {arguments : List Value} {x : String}
    (h : ((argumentFrame params arguments).get? x).isSome) : x ∈ params.map Name.text := by
  obtain ⟨v, hv⟩ := Option.isSome_iff_exists.mp h
  rcases foldl_insert_mem _ _ hv with hv | ⟨p, hp, rfl⟩
  · cases hv
  · exact List.mem_map_of_mem (List.of_mem_zip hp).1

/-- It binds all parameters, if there are as many arguments. -/
theorem argumentFrame_isSome {params : List Name} {arguments : List Value} (hl : arguments.length = params.length)
    {p : Name} (hp : p ∈ params) : ((argumentFrame params arguments).get? p.text).isSome := by
  refine foldl_insert_isSome _ _ (.inr ?_)
  have hz : (params.zip arguments).map Prod.fst = params := List.map_fst_zip (Nat.le_of_eq hl.symm)
  have hm : p ∈ (params.zip arguments).map Prod.fst := by rw [hz]; exact hp
  obtain ⟨q, hq, rfl⟩ := List.mem_map.mp hm
  exact List.mem_map_of_mem hq

namespace World

variable {w : World} {m : Machine} {Γ : Scopes} {F : Error → Prop}

/-! ## Environments -/

theorem Ends.newFrame (hm : w.MachineReady m) {frame : Frame} (env : Env)
    (hf : ∀ x v, frame.get? x = some v → w.ValueReady m.store v)
    (hc : ∀ env' m', Eval.newFrame frame env m = .done env' m' → ∃ opener, w.created env' opener) :
    w.Ends m F (fun env' m' => ∃ f, env' = f :: env ∧ f < m'.store.frames.size ∧
      ∀ x, m'.store.var? f x = frame.get? x) (Eval.newFrame frame env m) := by
  refine ⟨.store hm (hm.store.extend env hf (hc _ _ rfl)) (m.store.extend_grows frame env), _, rfl, ?_, fun x => ?_⟩
  · simp
  · exact (Store.var?_extend m.store frame env _ x).trans (if_pos rfl)

theorem Activation.ofBlock {s : Store} {f : FrameId} {env : Env} {body : List Stmt} (hf : f < s.frames.size)
    (hc : w.created (f :: env) (.block body)) : w.Activation s f env (.ofBlock body) :=
  ⟨hf, hc, nofun, nofun, nofun⟩

theorem Activation.ofRoutine {s : Store} {f : FrameId} {env : Env} {r : Routine} {arguments : List Value}
    (hf : f < s.frames.size) (hv : ∀ x, s.var? f x = (argumentFrame r.params arguments).get? x)
    (hc : w.created (f :: env) (.routine r)) (hl : arguments.length = r.params.length) (hp : ∀ p ∈ r.params, p.IsPlain) :
    w.Activation s f env (.ofRoutine r) := by
  have hplain : ∀ x ∈ (LocalScope.ofRoutine r).names, ∃ p ∈ r.params, p.text = x := by
    simp [LocalScope.ofRoutine]
  refine ⟨hf, hc, fun x hx _ => ?_, fun hx => ?_, fun hx => ?_⟩
  · obtain ⟨p, hm, rfl⟩ := hplain x hx
    rw [hv]
    exact argumentFrame_isSome hl hm
  · obtain ⟨p, hm, ht⟩ := hplain _ hx
    exact absurd ht (hp p hm).1
  · obtain ⟨p, hm, ht⟩ := hplain _ hx
    exact absurd ht (hp p hm).2

theorem Activation.ofReceiver {s : Store} {f : FrameId} {env : Env} {decl : Stmt} {i : Instance} (hf : f < s.frames.size)
    (hv : ∀ x, s.var? f x = (Dict.empty.insert "this" (.object i) : Frame).get? x) (hc : w.created (f :: env) (.receiver decl)) :
    w.Activation s f env (.ofReceiver decl) := by
  have ht : s.var? f "this" = some (.object i) := by rw [hv]; rfl
  refine ⟨hf, hc, fun x hx _ => ?_, fun _ => ⟨i, ht⟩, fun hx => ?_⟩
  · obtain rfl : x = "this" := by simpa [LocalScope.ofReceiver] using hx
    rw [ht]; rfl
  · simp [LocalScope.ofReceiver] at hx

theorem Activation.ofParent {s : Store} {f : FrameId} {env : Env} {decl : Stmt} {c : Class} (hf : f < s.frames.size)
    (hv : ∀ x, s.var? f x = (Dict.empty.insert "super" (.klass c) : Frame).get? x) (hc : w.created (f :: env) (.parent decl)) :
    w.Activation s f env (.ofParent decl) := by
  have ht : s.var? f "super" = some (.klass c) := by rw [hv]; rfl
  refine ⟨hf, hc, fun x hx _ => ?_, fun hx => ?_, fun _ => ⟨c, ht⟩⟩
  · obtain rfl : x = "super" := by simpa [LocalScope.ofParent] using hx
    rw [ht]; rfl
  · simp [LocalScope.ofParent] at hx

/-! ## Functions and instances -/

theorem Ends.freshSerial (hm : w.MachineReady m) : w.Ends m F (fun _ _ => True) (Eval.freshSerial m) :=
  ⟨.store hm hm.store.freshSerial (.of_frames rfl (Nat.le_succ _)), trivial⟩

theorem Ends.newFunction (hm : w.MachineReady m) (c : Closure) :
    w.Ends m F (fun f _ => f.closure = c) (Eval.newFunction c m) :=
  (Ends.freshSerial hm).bind fun _ _ _ hc _ => Ends.pure hc.ready rfl

theorem Ends.newInstance (hm : w.MachineReady m) (c : Class) :
    w.Ends m F (fun i _ => i.cls = c) (Eval.newInstance c m) :=
  ⟨.store hm (hm.store.construct c) (.of_frames rfl (Nat.le_refl _)), rfl⟩

theorem Ends.setField (hm : w.MachineReady m) {i : Instance} {x : String} {v : Value} (hv : w.ValueReady m.store v) :
    w.Ends m F (fun _ _ => True) (Eval.setField i x v m) :=
  ⟨.store hm (hm.store.setField hv) (.of_frames rfl (Nat.le_refl _)), trivial⟩

theorem Ends.bindThis (hm : w.MachineReady m) {c : Closure} {i : Instance} {decl : Stmt}
    (hb : w.BindableIn m.store c Γ decl) (hi : w.ClassReady m.store i.cls)
    (hc : ∀ bound m', Eval.bindThis c i m = .done bound m' → w.created bound.env (.receiver decl)) :
    w.Ends m F (fun bound m' => w.Callable m'.store bound ∧ bound.routine = c.routine) (Eval.bindThis c i m) := by
  have hf : ∀ x v, (Dict.empty.insert "this" (.object i) : Frame).get? x = some v → w.ValueReady m.store v := by
    intro x v hv
    rw [Dict.get?_insert] at hv
    split at hv <;> cases hv
    exact hi
  have hframe : ∀ env m', Eval.newFrame (Dict.empty.insert "this" (.object i)) c.env m = .done env m' →
      w.created env (.receiver decl) :=
    fun env m' heq => hc { c with env } m' (by unfold Eval.bindThis; rw [Run.bind_apply, heq]; rfl)
  refine (Ends.newFrame hm c.env hf fun env m' heq => ⟨_, hframe env m' heq⟩).bind fun env m' heq hcont ⟨f, hf, hlt, hv⟩ => ?_
  have hcreated := hframe env m' heq
  refine Ends.pure hcont.ready ⟨⟨.ofReceiver decl :: Γ, ?_⟩, rfl⟩
  refine ⟨?_, hb.sees, fun _ => ⟨_, _, rfl, by simp [LocalScope.ofReceiver]⟩, hb.getter⟩
  subst hf
  exact .scope (.ofReceiver hlt hv hcreated) (hb.models.grow hcont.grows)

/-! ## Classes -/

theorem SeesMethods.mem : ∀ {ms : List Method}, w.SeesMethods ms Γ → ∀ m ∈ ms,
    w.SeesRoutine m.routine Γ ∧ (m.isGetter = true → m.routine.params = [])
  | ⟨_, _, _⟩ :: _, h, _, .head _ => ⟨⟨h.proper.1.2, fun o ho => h.known o (List.mem_append_left _ ho)⟩, h.proper.1.1⟩
  | _ :: ms, h, m, .tail _ hm =>
    have hsee : w.SeesMethods ms Γ := ⟨h.proper.2, fun o ho => h.known o (List.mem_append_right _ ho)⟩
    hsee.mem m hm

/-- Whatever holds of the methods' closures holds of the functions in the table. -/
theorem Ends.methodTable (good : Store → Closure → Prop) (hg : ∀ {s s' c}, s.Grows s' → good s c → good s' c) (env : Env)
    (initializers : Bool) : ∀ (ms : List Method) {table : Dict FunctionObject} {m : Machine}, w.MachineReady m →
    (∀ x f, table.get? x = some f → good m.store f.closure) →
    (∀ mm ∈ ms, good m.store ⟨mm.name, mm.routine, mm.isGetter, initializers && mm.name.text = "init", env⟩) →
    w.Ends m F (fun t m' => ∀ x f, t.get? x = some f → good m'.store f.closure) (Eval.methodTable env initializers ms table m)
  | [], _, _, hm, ht, _ => Ends.pure hm ht
  | mm :: ms, table, m, hm, ht, hms => by
    refine (Ends.newFunction hm _).bind fun f m' _ hc hf => ?_
    have hrest := fun mm' (hmm' : mm' ∈ ms) => hg hc.grows (hms mm' (.tail _ hmm'))
    refine Ends.methodTable good hg env initializers ms hc.ready (fun x g hx => ?_) hrest
    rw [Dict.get?_insert] at hx
    split at hx
    · cases hx; rw [hf]; exact hg hc.grows (hms mm (.head _))
    · exact hg hc.grows (ht x g hx)

/-- The members of a class see the scope of `super`, if it has a superclass. -/
theorem Ends.memberEnv (h : w.At m Γ) {decl : Stmt} {ref : Option Reference} {parent : Option Class}
    (hp : w.ParentReady m.store ref parent)
    (hc : ∀ c env m', parent = some c →
      Eval.newFrame (Dict.empty.insert "super" (.klass c)) m.env m = .done env m' → w.created env (.parent decl)) :
    w.Ends m F (fun env m' => w.Models m'.store env (Γ.derive decl ref)) (Eval.memberEnv parent m) := by
  obtain ⟨hsome, hready⟩ := hp
  cases parent with
  | none =>
    cases ref with
    | none => exact Ends.pure h.ready h.models
    | some r => cases hsome
  | some c =>
    cases ref with
    | none => cases hsome
    | some r =>
      have hf : ∀ x v, (Dict.empty.insert "super" (.klass c) : Frame).get? x = some v → w.ValueReady m.store v := by
        intro x v hv
        rw [Dict.get?_insert] at hv
        split at hv <;> cases hv
        exact hready c rfl
      refine (Ends.newFrame h.ready m.env hf fun env m' heq => ⟨_, hc c env m' rfl heq⟩).imp (fun _ he => he) ?_
      intro _ m' heq hcont h
      obtain ⟨f, rfl, hlt, hv⟩ := h
      exact .scope (.ofParent hlt hv (hc c _ m' rfl heq)) (h.models.grow hcont.grows)

theorem Ends.newClass (h : w.At m Γ) {name : Name} {ref : Option Reference} {methods statics : List Method} {decl : Stmt}
    {parent : Option Class} (hdecl : decl = .classDecl name ref methods statics) (hp : w.ParentReady m.store ref parent)
    (hm : w.SeesMethods methods (.ofReceiver decl :: Γ.derive decl ref)) (hs : w.SeesMethods statics (Γ.derive decl ref))
    (hc : ∀ c env m', parent = some c →
      Eval.newFrame (Dict.empty.insert "super" (.klass c)) m.env m = .done env m' → w.created env (.parent decl)) :
    w.Ends m F (fun c m' => w.ClassReady m'.store c) (Eval.newClass name parent methods statics m) := by
  have noEntry : ∀ {good : Closure → Prop} x f, (Dict.empty : Dict FunctionObject).get? x = some f → good f.closure :=
    fun _ _ hf => by cases hf
  refine (Ends.memberEnv h hp hc).bind fun env m₁ _ h₁ henv => ?_
  refine (Ends.methodTable w.Bindable (fun hg hb => hb.grow hg) env true methods h₁.ready noEntry ?_).bind
    fun mt m₂ _ h₂ hmt => ?_
  · intro mm hmm
    obtain ⟨hsees, hget⟩ := hm.mem mm hmm
    exact ⟨_, decl, henv, ⟨name, ref, methods, statics, hdecl, mm, hmm, rfl⟩, hsees, hget⟩
  refine (Ends.methodTable w.Callable (fun hg hb => hb.grow hg) env false statics h₂.ready noEntry ?_).bind
    fun st m₃ _ h₃ hst => ?_
  · intro mm hmm
    obtain ⟨hsees, hget⟩ := hs.mem mm hmm
    exact ⟨_, henv.grow h₂.grows, hsees, nofun, hget⟩
  refine (Ends.freshSerial h₃.ready).bind fun serial m₄ hserial h₄ _ => Ends.pure h₄.ready ?_
  have hg := (h₁.grows.trans h₂.grows).trans (h₃.grows.trans h₄.grows)
  intro layer hl
  cases hl with
  | head =>
    refine ⟨?_, fun x f hf => (hmt x f hf).grow (h₃.grows.trans h₄.grows), fun x f hf => (hst x f hf).grow h₄.grows⟩
    cases hserial
    exact Nat.lt_succ_self _
  | tail _ hl =>
    cases parent with
    | none => cases hl
    | some p => exact (hp.2 p rfl).grow hg layer hl

/-! ## Output and native functions -/

theorem Ends.writeLine (hm : w.MachineReady m) {text : String} {fault : OutputFault → Error} (hf : F (fault .sinkFull)) :
    w.Ends m F (fun _ _ => True) (Eval.writeLine text fault m) := by
  unfold Eval.writeLine
  cases m.output.write (text ++ "\n") with
  | mk written output =>
    cases written with
    | true => exact ⟨⟨⟨hm.store, hm.table⟩, .refl _, rfl, rfl, rfl⟩, trivial⟩
    | false => exact ⟨⟨⟨hm.store, hm.table⟩, .refl _, rfl, rfl, rfl⟩, hf⟩

/-- A native function gives a plain value, and has no fault but that of its input or output. -/
theorem Ends.callNative (hm : w.MachineReady m) {fn : Native} {arguments : List Value} {line : Nat}
    (hi : F (.runtime line .inputNotText)) (ho : ∀ fault, F (.runtime line (.outputNotWritten fault))) :
    w.Ends m F (fun v m' => w.ValueReady m'.store v) (Eval.callNative fn arguments line m) := by
  unfold Eval.callNative
  split
  · exact ⟨⟨⟨hm.store, hm.table⟩, .refl _, rfl, rfl, rfl⟩, trivial⟩
  · unfold Eval.readLine
    dsimp only
    split
    · exact ⟨⟨⟨hm.store, hm.table⟩, .refl _, rfl, rfl, rfl⟩, trivial⟩
    · exact ⟨⟨⟨hm.store, hm.table⟩, .refl _, rfl, rfl, rfl⟩, trivial⟩
    · exact ⟨⟨⟨hm.store, hm.table⟩, .refl _, rfl, rfl, rfl⟩, hi⟩
  · exact (Ends.writeLine hm (ho _)).bind fun _ _ _ hc _ => Ends.pure hc.ready trivial
  · exact Ends.pure hm trivial
  · exact Ends.pure hm trivial

end World

/-! ## Operators -/

/-- Operators give truth values, numbers and strings. -/
def Value.IsPlain : Value → Prop
  | .bool _ => True
  | .number _ => True
  | .string _ => True
  | _ => False

theorem Value.IsPlain.ready {w : World} {s : Store} : ∀ {v : Value}, v.IsPlain → w.ValueReady s v
  | .bool _, _ => trivial
  | .number _, _ => trivial
  | .string _, _ => trivial

/-- What an operator may give. -/
def OperatorResult : Except RuntimeFault Value → Prop
  | .ok v => v.IsPlain
  | .error fault => fault.isInternal = false ∧ ∀ text, fault ≠ .naming (.undefined text)

theorem Mark.applyUnary_result {op : Mark} (h : op.isUnary = true) (v : Value) : OperatorResult (op.applyUnary v) := by
  unfold Mark.isUnary at h
  split at h
  · exact trivial
  · cases v <;> first | trivial | exact ⟨rfl, nofun⟩
  · cases h

theorem Mark.onNumbers_result {op : Mark} (h : op.isBinary = true) (he : op ≠ .equalEqual ∧ op ≠ .bangEqual)
    (x y : Float) : OperatorResult (op.onNumbers x y) := by
  unfold Mark.onNumbers
  split
  all_goals first | trivial | skip
  · split
    · exact ⟨rfl, nofun⟩
    · trivial
  · split
    · exact ⟨rfl, nofun⟩
    · trivial
  · exfalso
    revert h he
    cases op <;> simp_all [Mark.isBinary]

theorem Mark.applyBinary_result {op : Mark} (h : op.isBinary = true) (v w : Value) : OperatorResult (op.applyBinary v w) := by
  unfold Mark.applyBinary
  split
  · trivial
  · trivial
  · trivial
  · rename_i x y he hb
    exact Mark.onNumbers_result h ⟨he, hb⟩ x y
  · exact ⟨rfl, nofun⟩
  · exact ⟨rfl, nofun⟩

end Lox
