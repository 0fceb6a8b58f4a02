import Lox.Proofs.Session.Chained
import Lox.Proofs.Evaluation.Arising

/-!
# Where the values of a session come from

All values of a session were made in the moments that it came through: those that it holds or has given out, and those that
are at hand in any such moment.
-/

namespace Lox

variable {h : History} {r : Request} {x y : Moment}

theorem Past.Meets.next {past : Past} (hx : past.Meets x) (p : Session × Request) : Past.Meets (p :: past) x := by
  obtain ⟨q, hq, hx⟩ := hx
  exact ⟨q, .tail _ hq, hx⟩

theorem Request.Begins.met (hb : r.Begins h.session x) : h.Met r x := ⟨(h.session, r), .head _, x, hb, .refl⟩

/-! ## Programs -/

theorem Leaves.executeEach {met : Moment → Prop} (hcalls : ∀ {x y : Moment}, met x → x.Calls y → met y) {fuel : Nat} :
    ∀ {sts : List Stmt} {m : Machine}, (∀ before st after m', sts = before ++ st :: after →
      Eval.executeEach fuel before m = .done () m' → met ⟨fuel, .stmt st, m'⟩) →
    Leaves (Arises met) (fun _ => True) (Eval.executeEach fuel sts) m
  | [], _, _ => .pure trivial
  | st :: sts, m, hmet => by
    refine .bind (yields hcalls fuel (.stmt st) m (hmet [] st sts m rfl rfl) trivial) fun flow m' hm' _ => ?_
    refine executeEach hcalls fun before st' after m'' heq hm'' => hmet (st :: before) st' after m'' (by rw [heq]; rfl) ?_
    have hm' : Eval.execute fuel st m = .done flow m' := hm'
    rw [Eval.executeEach, Run.bind_apply, hm']
    exact hm''

/-- The part of a program before a statement leaves values that have arisen. -/
theorem Leaves.program {fuel : Nat} {source : String} {c : Checked}
    (hc : (analyze source h.session.nextId).checked = some c) {before after : List Stmt} (hprog : c.program = before ++ after) :
    Leaves (Arises (h.Met (.run fuel source))) (fun _ => True) (Eval.executeEach fuel before)
      ((Request.run fuel source).machine h.session) := by
  refine .executeEach .calls fun first st rest m heq hm => ?_
  have hprog : c.program = first ++ st :: (rest ++ after) := by simp [hprog, heq]
  exact (Request.Begins.statement hc hprog hm).met

/-! ## Sessions -/

/-- The values of the session, and those that calls have given, were made in moments of its requests. -/
structure History.Arisen (h : History) : Prop where
  store : h.session.machine.store.Holds (Arises h.past.Meets)
  given : ∀ v ∈ h.given, Arises h.past.Meets v

namespace History.Arisen

theorem start (input : Input) (output : Sink) (clock : Nat) : (History.start input output clock).Arisen where
  store := by
    refine ⟨fun f x v hv => ?_, fun i x v hv => ?_⟩
    · have hv : (Store.empty.extend initialGlobals []).2.var? f x = some v := hv
      rw [Store.var?_extend] at hv
      split at hv
      · obtain ⟨fn, rfl⟩ := History.Ready.initialGlobals_get? hv
        exact .native
      · simp [Store.var?, Store.frame?, Store.empty] at hv
    · simp [Store.field?, History.start, Session.start, Machine.start, Store.extend, Store.empty] at hv
  given := nofun

variable (hh : h.Arisen)
include hh

theorem offers {v : Value} (hv : h.Offers v) : Arises h.past.Meets v := by
  induction hv with
  | nil => exact .nil
  | bool => exact .bool
  | number => exact .number
  | string => exact .string
  | native => exact .native
  | given hv => exact hh.given _ hv
  | var hv => exact hh.store.vars _ _ _ hv
  | field hv => exact hh.store.fields _ _ _ hv
  | cls _ ih => exact .cls ih
  | superclass _ hc ih => exact .superclass ih hc
  | static _ hf ih => exact .static ih hf
  | receiver _ ih => exact .receiver ih

theorem begun (r : Request) : (r.machine h.session).store.Holds (Arises (h.Met r)) := by
  rw [Request.machine_store]
  exact hh.store.imp fun _ hv => hv.mono fun _ hy => hy.next _

theorem allowed (ha : h.Allows r) {fuel : Nat} {callee : Value} {args : List Value} {line : Nat}
    (hr : r = .call fuel callee args line) : (Activity.call callee args line).Arises (h.Met r) := by
  subst hr
  exact ⟨(hh.offers ha.1).mono fun _ hy => hy.next _, fun v hv => (hh.offers (ha.2 v hv)).mono fun _ hy => hy.next _⟩

theorem begins (ha : h.Allows r) (hb : r.Begins h.session x) : x.Arisen (h.Met r) := by
  cases hb with
  | call => exact ⟨hh.allowed ha rfl, hh.begun (.call _ _ _ _)⟩
  | @statement fuel source c before st after m hc hprog hm =>
    exact ⟨trivial, ((Leaves.program hc hprog).of_done (hh.begun _) hm).1⟩

theorem meets (ha : h.Allows r) (hx : r.Meets h.session x) : x.Arisen (h.Met r) := by
  obtain ⟨y, hb, hreach⟩ := hx
  exact (hh.begins ha hb).reaches .calls hb.met hreach

theorem answer (ha : h.Allows r) {a : Answer} (hans : h.session.answer? r = some a) : (h.after r a).Arisen := by
  cases r with
  | call fuel callee arguments line =>
    let met := h.Met (.call fuel callee arguments line)
    have hleaves : Leaves (Arises met) (Arises met) (Eval.call fuel callee arguments line) h.session.machine :=
      yields .calls fuel (.call callee arguments line) _ (Request.Begins.call).met (hh.allowed ha rfl)
    have hends := hleaves (hh.begun (.call fuel callee arguments line))
    simp only [Session.answer?, Session.call] at hans
    cases ho : Eval.call fuel callee arguments line h.session.machine with
    | exhausted => rw [ho] at hans; cases hans
    | failed e m =>
      rw [ho] at hans hends
      cases hans
      exact ⟨hends, fun v hv => (hh.given v hv).mono fun _ hy => hy.next _⟩
    | done v m =>
      rw [ho] at hans hends
      cases hans
      exact ⟨hends.1, List.forall_mem_cons.mpr ⟨hends.2, fun v hv => (hh.given v hv).mono fun _ hy => hy.next _⟩⟩
  | run fuel source =>
    have hgiven : ∀ v ∈ h.given, Arises (h.Met (.run fuel source)) v :=
      fun v hv => (hh.given v hv).mono fun _ hy => hy.next _
    have hbegun := hh.begun (.run fuel source)
    cases hc : (analyze source h.session.nextId).checked with
    | none =>
      simp only [Session.answer?, Session.run, hc] at hans
      cases hans
      rw [Request.machine_store] at hbegun
      exact ⟨hbegun, hgiven⟩
    | some c =>
      have hends := (Leaves.program hc (List.append_nil _).symm).flushing hbegun
      simp only [Session.answer?, Session.run, hc, Request.interpret_eq hc] at hans
      cases ho : Eval.flushing (Eval.executeEach fuel c.program) ((Request.run fuel source).machine h.session) with
      | exhausted => rw [ho] at hans; cases hans
      | failed e m => rw [ho] at hans hends; cases hans; exact ⟨hends, hgiven⟩
      | done v m => rw [ho] at hans hends; cases hans; exact ⟨hends.1, hgiven⟩

end History.Arisen

theorem History.Possible.arisen (hp : h.Possible) : h.Arisen := by
  induction hp with
  | start => exact .start _ _ _
  | next _ ha hans ih => exact ih.answer ha hans
  | between _ _ _ _ ih => exact ⟨ih.store, ih.given⟩

/-- Whatever moment a session comes to, all values that there are then have arisen. -/
theorem History.Possible.arisen_met (hp : h.Possible) (ha : h.Allows r) (hx : h.Met r x) : x.Arisen (h.Met r) :=
  hp.met (P := fun past x => x.Arisen past.Meets) (fun p _ _ harisen => harisen.mono fun _ hy => hy.next p)
    (fun hp ha hx => hp.arisen.meets ha hx) ha hx

end Lox
