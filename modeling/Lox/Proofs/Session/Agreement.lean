import Lox.Proofs.Session.Invariant
import Lox.Proofs.Text.Messages

/-!
# Scopes at run time

What the static phases have promised holds in all histories of a session: environments lie where the
binding table says, and no error is one that the static phases exclude.
-/

namespace Lox

variable {h : History} {r : Request} {a : Answer}

theorem History.Ready.meets (hr : h.Ready) (ha : h.Allows r) {x : Moment} (hx : r.Meets h.session x) :
    (h.worldWith r).Covers x ∧ ∃ Γ, x.activity.Ready (h.worldWith r) Γ x.machine := by
  obtain ⟨y, hb, hreach⟩ := hx
  obtain ⟨Γ, hready⟩ := hr.begins ha hb
  exact ⟨fun z env opener hz => Past.covers hb z env opener (hreach.trans hz), World.ready_reaches (Past.covers hb) hreach hready⟩

/-- A variable that is not there is a global one that nothing has declared, or it is read or written
in its own initializer. -/
def World.Missing (w : World) (m : Machine) (id : NodeId) (name : String) : Prop :=
  (m.bindings.get? id = none ∧ m.global? name = none) ∨
    ∃ scopes d sc, w.known ⟨id, name, scopes⟩ ∧ m.bindings.get? id = some d ∧ scopes[d]? = some sc ∧ sc.pending = some name

theorem World.Agrees.missing {w : World} {m : Machine} {id : NodeId} {name : String} (h : w.Agrees m id name)
    (hv : m.lookUp? id name = none) : w.Missing m id name := by
  obtain ⟨scopes, ho, hfinds⟩ := h
  unfold Machine.lookUp? at hv
  cases hd : m.bindings.get? id with
  | none =>
    rw [hd] at hv
    exact .inl ⟨hd, hv⟩
  | some d =>
    obtain ⟨-, sc, f, outer, hf⟩ := hfinds d hd
    have henv : m.env[d]? = some f := by rw [← List.head?_drop, hf.links]; rfl
    simp only [hd, readAt_eq henv] at hv
    refine .inr ⟨scopes, d, sc, ho, hd, hf.scope, Decidable.byContradiction fun hp => ?_⟩
    have hb := hf.bound hp
    rw [hv] at hb
    cases hb

/-- Resolution and evaluation agree on scopes in the request. Wherever a node is evaluated that the
table binds, the environment lies that many links out that was created for the scope, and it binds
the name, unless the node lies in the initializer of that variable. Only such nodes and unbound
ones end in the error of an undefined variable. -/
structure History.Agrees (h : History) (r : Request) : Prop where
  accesses : ∀ x id name m, r.Meets h.session x → x.Accesses id name m → (h.worldWith r).Agrees m id name.text
  undefined : ∀ a line text, h.session.answer? r = some a → Error.runtime line (.naming (.undefined text)) ∈ a.errors →
    ∃ x id m, r.Meets h.session x ∧ x.Accesses id ⟨text, line⟩ m ∧ (h.worldWith r).Missing m id text

/-- In every history, requests find at run time the scopes that resolution has counted. -/
theorem evaluation_agrees_with_scopes (hp : h.Possible) (ha : h.Allows r) : h.Agrees r := by
  have agree : ∀ x id name m, r.Meets h.session x → x.Accesses id name m → (h.worldWith r).Agrees m id name.text := by
    intro x id name m hx hacc
    obtain ⟨hcov, Γ, hready⟩ := hp.ready.meets ha hx
    exact World.ready_accesses hcov hready hacc
  refine ⟨agree, fun a line text hans he => ?_⟩
  have hb := (hp.ready.answer ha hans).blames
  obtain ⟨x, id, m, hx, hacc, hv⟩ := (hb _ he).traced line text rfl
  exact ⟨x, id, m, hx, hacc, (agree x id _ m hx hacc).missing hv⟩

/-- A host calls a function long after the call that made it has ended. -/
theorem scopes_of_kept_closure :
    let h := History.start (.ofBytes []) .unlimited 0
    let r := Request.run 20 "fun f(a): fun(): a; var k = f(nil);"
    ∃ a f a', h.session.answer? r = some a ∧ a.session.machine.global? "k" = some f ∧
      a.session.answer? (.call 20 f [] 1) = some a' ∧ (h.after r a).Agrees (.call 20 f [] 1) := by
  intro h r
  have hall : ((h.session.answer? r).bind fun a => (a.session.machine.global? "k").bind fun f =>
      a.session.answer? (.call 20 f [] 1)).isSome = true := by decide +kernel
  obtain ⟨a', hall⟩ := Option.isSome_iff_exists.mp hall
  obtain ⟨a, ha, hall⟩ := Option.bind_eq_some_iff.mp hall
  obtain ⟨f, hf, hcall⟩ := Option.bind_eq_some_iff.mp hall
  have hp : (h.after r a).Possible := .next .start trivial ha
  have hallows : (h.after r a).Allows (.call 20 f [] 1) := ⟨.var (f := 0) (x := "k") hf, nofun⟩
  exact ⟨a, f, a', ha, hf, hcall, evaluation_agrees_with_scopes hp hallows⟩

/-! ## Internal errors -/

/-- The texts of errors that only an unchecked program could meet. -/
def internalMessages : List String :=
  ["Invalid unary operator.", "Invalid binary operator.", "Unresolved 'super'.", "Unresolved 'this'.",
    "Undefined variable 'this'."]

theorem internal_of_mem_internalMessages :
    ∀ text ∈ internalMessages, ∃ fault : RuntimeFault, fault.isInternal = true ∧ fault.message = text := by
  simp only [internalMessages, List.forall_mem_cons]
  exact ⟨⟨.invalidUnaryOperator, rfl, rfl⟩, ⟨.invalidBinaryOperator, rfl, rfl⟩, ⟨.unresolvedSuper, rfl, rfl⟩,
    ⟨.unresolvedThis, rfl, rfl⟩, ⟨.naming (.undefined "this"), rfl, rfl⟩, nofun⟩

theorem RuntimeFault.message_of_external {fault : RuntimeFault} (h : fault.isInternal = false) :
    fault.message ∉ internalMessages := by
  intro hm
  obtain ⟨fault', hinternal, hmessage⟩ := internal_of_mem_internalMessages _ hm
  rw [message_injective hmessage, h] at hinternal
  cases hinternal

/-- No error of an evaluation is one that the static phases exclude. -/
theorem no_internal_error (hp : h.Possible) (ha : h.Allows r) (hans : h.session.answer? r = some a) {line : Nat}
    {fault : RuntimeFault} (he : Error.runtime line fault ∈ a.errors) : fault.message ∉ internalMessages :=
  RuntimeFault.message_of_external (((hp.ready.answer ha hans).blames _ he).external)

/-- The call of what is no function is an error of another kind. -/
theorem no_internal_error_of_call :
    let h := History.start (.ofBytes []) .unlimited 0
    ∃ a, h.session.answer? (.run 20 "nil();") = some a ∧ Error.runtime 1 .notCallable ∈ a.errors ∧
      RuntimeFault.message .notCallable ∉ internalMessages := by
  intro h
  have hrun : (h.session.answer? (.run 20 "nil();")).map (fun a => decide (Error.runtime 1 .notCallable ∈ a.errors)) =
      some true := by decide +kernel
  obtain ⟨a, ha, he⟩ := Option.map_eq_some_iff.mp hrun
  have he := of_decide_eq_true he
  have hallows : h.Allows (.run 20 "nil();") := trivial
  exact ⟨a, ha, he, no_internal_error .start hallows ha he⟩

end Lox
