import Lox.CommandLine.Perform
import Lox.Proofs.Evaluation.Reads
import Lox.Proofs.Session.Jobs

/-!
# What a prompt does with its input

The prompt runs the lines that it sees, in order, and the lines that the calls of `read` in a program get are in order too. But
what a program has taken over from the prompt and not read the prompt does not see again, and at the end it is lost.
-/

namespace Lox

/-! ## Runs -/

theorem Draws.executeEach {n : Nat} {comes : Moment → Prop} : ∀ {sts : List Stmt} {m : Machine},
    (∀ before st after m', sts = before ++ st :: after → Eval.executeEach n before m = .done () m' →
      ∀ y, Moment.Reaches ⟨n, .stmt st, m'⟩ y → comes y) → Draws comes m (Eval.executeEach n sts m)
  | [], _, _ => .pure ()
  | st :: _, m, hcomes => .bind ((draws n (.stmt st) m).imp (hcomes [] st _ m rfl rfl)) fun _ _ hst =>
    .executeEach fun before st' after m' heq hm => hcomes (st :: before) st' after m' (by rw [heq]; rfl)
      (by rw [Eval.executeEach, Run.bind_of_done hst]; exact hm)

theorem Job.draws (j : Job) (m : Machine) :
    Draws (fun y => ∃ x, j.Begins m x ∧ x.Reaches y) (j.machine m) (j.evaluate (j.machine m)) := by
  cases j with
  | call fuel callee arguments line => exact (Lox.draws fuel (.call callee arguments line) m).imp fun _ h => ⟨_, .call, h⟩
  | interpret fuel program table => exact .executeEach fun _ _ _ _ heq hm _ h => ⟨_, .statement heq hm, h⟩

theorem Job.machine_input (j : Job) (m : Machine) : (j.machine m).input = m.input := by cases j <;> rfl

/-- What a run takes from the input, calls of `read` get that it comes to. -/
theorem Session.run_draws {fuel : Nat} {source : String} {s s' : Session} {report : Report}
    (h : s.run fuel source = some (report, s')) : ∃ lines, s.machine.input.Hands lines s'.machine.input ∧
      ∀ line ∈ lines, ∃ x, (Request.run fuel source).Meets s x ∧ x.Gets line := by
  obtain ⟨a, ha, rfl⟩ : ∃ a, s.answer? (.run fuel source) = some a ∧ a.session = s' := by
    rw [answer?, h]
    exact ⟨_, rfl, rfl⟩
  obtain ⟨j, hj, he⟩ | ⟨-, he⟩ := Request.answer_ends ha
  · obtain ⟨lines, hhands, hgets⟩ := j.draws s.machine _ (Job.ends he)
    rw [j.machine_input] at hhands
    refine ⟨lines, hhands, fun line hl => ?_⟩
    obtain ⟨y, ⟨x, hb, hr⟩, hy⟩ := hgets line hl
    exact ⟨y, ⟨x, Request.begins_iff.mpr ⟨j, hj, hb⟩, hr⟩, hy⟩
  · exact ⟨[], he ▸ .done, List.forall_mem_nil _⟩

namespace CommandLine

/-! ## Turns -/

/-- A line that the prompt runs. -/
structure Turn where
  source : List UInt8
  /-- What its program takes over from the prompt. -/
  taken : List UInt8
  /-- The lines that its calls of `read` get. -/
  reads : List (List UInt8)
  /-- What the program's buffer holds in the end. -/
  held : List UInt8

/-- The session after it has prompted and got a line. -/
def prompted (s : Session) : Session := (s.say "> ").promptLine.2

/-- The session runs the first line that the prompt sees, and after it is the other one. -/
structure Turn.Follows (fuel : Nat) (s : Session) (t : Turn) (s' : Session) : Prop where
  source : t.source = firstLine s.machine.input.pending
  someLine : t.source ≠ []
  runs : ∃ text report, Utf8.decode t.source = .ok text ∧ (prompted s).run fuel text = some (report, s') ∧
    ∀ line ∈ t.reads, ∃ x, (Request.run fuel text).Meets (prompted s) x ∧ x.Gets line
  hands : (prompted s).machine.input.Hands t.reads s'.machine.input
  pending : s.machine.input.pending = t.source ++ t.taken ++ s'.machine.input.pending
  own : s.machine.input.own ++ t.taken = t.reads.flatten ++ t.held
  held : t.held = s'.machine.input.own

inductive Turns (fuel : Nat) : Session → List Turn → Session → Prop where
  | nil {s} : Turns fuel s [] s
  | cons {s t s' ts s''} : t.Follows fuel s s' → Turns fuel s' ts s'' → Turns fuel s (t :: ts) s''

/-- The prompt ends where it sees no line any more, or one that is no text. -/
inductive Finish.Ends (f : Finish) (s : Session) : Prop where
  | nothing : f.exit = 0 → s.machine.input.pending = [] → Ends f s
  | noText {fault} : f.exit = exitUnreadable → Utf8.decode (firstLine s.machine.input.pending) = .error fault → Ends f s

section
variable {fuel : Nat} {s s' : Session}

theorem say_promptLine (s : Session) : (s.say "> ").promptLine = (firstLine s.machine.input.pending, prompted s) :=
  Prod.ext s.machine.input.promptLine_line rfl

theorem prompted_parts (s : Session) :
    firstLine s.machine.input.pending ++ (prompted s).machine.input.pending = s.machine.input.pending := by
  rw [← Input.promptLine_line]
  exact s.machine.input.promptLine_parts

theorem Turn.follows {text : String} {report : Report} (hne : firstLine s.machine.input.pending ≠ [])
    (htext : Utf8.decode (firstLine s.machine.input.pending) = .ok text)
    (hrun : (prompted s).run fuel text = some (report, s')) : ∃ t : Turn, t.Follows fuel s s' := by
  obtain ⟨lines, hhands, hgets⟩ := Session.run_draws hrun
  obtain ⟨taken, hpending, hown⟩ := hhands.parts
  refine ⟨⟨firstLine s.machine.input.pending, taken, lines, s'.machine.input.own⟩, rfl, hne,
    ⟨text, report, htext, hrun, hgets⟩, hhands, ?_, hown, rfl⟩
  dsimp only
  rw [List.append_assoc, ← hpending, prompted_parts]

/-- The prompt takes one turn after the other. -/
theorem promptLoop_turns {warnings : Bool} : ∀ {limit : Nat} {s : Session} {stderr : String} {f : Finish},
    promptLoop fuel warnings limit s stderr = some f → ∃ turns s', Turns fuel s turns s' ∧ f.Ends s'
  | 0, _, _, _, h => by cases h
  | limit + 1, s, stderr, f, h => by
    rw [promptLoop, say_promptLine] at h
    dsimp only at h
    split at h
    · rename_i hempty
      cases h
      exact ⟨[], s, .nil, .nothing rfl (firstLine_eq_nil.mp (List.isEmpty_iff.mp hempty))⟩
    · rename_i hne
      split at h
      · rename_i fault hfault
        cases h
        exact ⟨[], s, .nil, .noText rfl hfault⟩
      · rename_i text htext
        obtain ⟨⟨report, s'⟩, hrun, h⟩ := Option.bind_eq_some_iff.mp h
        obtain ⟨t, ht⟩ := Turn.follows (fun he => hne (List.isEmpty_iff.mpr he)) htext hrun
        obtain ⟨turns, s'', hturns, hends⟩ := promptLoop_turns h
        exact ⟨t :: turns, s'', .cons ht hturns, hends⟩

/-! ## All turns -/

theorem Turns.pending {turns : List Turn} (h : Turns fuel s turns s') :
    s.machine.input.pending = turns.flatMap (fun t => t.source ++ t.taken) ++ s'.machine.input.pending := by
  induction h with
  | nil => rfl
  | cons ht _ ih =>
    rw [ht.pending, ih, List.flatMap_cons]
    simp only [List.append_assoc]

theorem Turns.own {turns : List Turn} (h : Turns fuel s turns s') :
    s.machine.input.own ++ turns.flatMap Turn.taken = turns.flatMap (fun t => t.reads.flatten) ++ s'.machine.input.own := by
  induction h with
  | nil => exact List.append_nil _
  | cons ht _ ih =>
    rw [List.flatMap_cons, ← List.append_assoc, ht.own, List.append_assoc, ht.held, ih, List.flatMap_cons, List.append_assoc]

/-- Where no program keeps anything, each takes over just the lines that it reads. -/
theorem Turns.taken {turns : List Turn} (h : Turns fuel s turns s') (hown : s.machine.input.own = [])
    (hheld : ∀ t ∈ turns, t.held = []) : ∀ t ∈ turns, t.taken = t.reads.flatten := by
  induction h with
  | nil => exact nofun
  | cons ht _ ih =>
    obtain ⟨hfirst, hheld⟩ := List.forall_mem_cons.mp hheld
    have htaken := ht.own
    rw [hown, hfirst, List.append_nil, List.nil_append] at htaken
    exact List.forall_mem_cons.mpr ⟨htaken, ih (ht.held.symm.trans hfirst) hheld⟩

/-- All of the stream is in the buffer of the prompt, or will be with the next line. -/
structure Short (i : Input) : Prop where
  own : i.own = []
  stream : i.stream = [] ∨ i.shared = [] ∧ i.stream.length ≤ chunkSize

theorem Short.prompted (h : Short s.machine.input) : (prompted s).machine.input.stream = [] :=
  takeLine_drains _ _ <| h.stream.imp_right fun ⟨hshared, hle⟩ =>
    ⟨by rw [show (s.say "> ").machine.input.shared = [] from hshared]; rfl, hle⟩

theorem Turns.none_of_pending {turns : List Turn} (h : Turns fuel s turns s') (hs : s.machine.input.pending = []) :
    turns = [] := by
  cases h with
  | nil => rfl
  | cons ht _ => exact absurd (ht.source.trans (firstLine_eq_nil.mpr hs)) ht.someLine

/-- The first line that is read from a short stream takes with it all that comes after. -/
theorem Turns.short {before after : List Turn} {t : Turn} (h : Turns fuel s (before ++ t :: after) s')
    (hs : Short s.machine.input) (hread : t.reads ≠ []) : after = [] ∧ s'.machine.input.pending = [] := by
  induction before generalizing s with
  | nil =>
    obtain _ | @⟨_, _, s₁, _, _, ht, hturns⟩ := h
    have hpending := ht.hands.drained hs.own hs.prompted hread
    obtain rfl := hturns.none_of_pending hpending
    cases hturns
    exact ⟨rfl, hpending⟩
  | cons t₀ before ih =>
    obtain _ | @⟨_, _, s₁, _, _, ht, hturns⟩ := h
    by_cases hnone : t₀.reads = []
    · have hhands := ht.hands
      rw [hnone] at hhands
      refine ih hturns ?_
      rw [hhands.eq_of_nil]
      exact ⟨hs.own, .inl hs.prompted⟩
    · -- it was an earlier turn that took all, and there is none after that one
      have hnil := hturns.none_of_pending (ht.hands.drained hs.own hs.prompted hnone)
      exact absurd (List.append_eq_nil_iff.mp hnil).2 (List.cons_ne_nil _ _)

end

/-! ## The whole input -/

/-- Where the octets of the input go that the prompt is given. -/
structure Accounts (fuel : Nat) (stdin : List UInt8) (turns : List Turn) (s : Session) (f : Finish) : Prop where
  ends : f.Ends s
  /-- Each line of the prompt begins where those before it, and the programs that they are, have left the input. -/
  prompted : stdin = turns.flatMap (fun t => t.source ++ t.taken) ++ s.machine.input.pending
  /-- Of what programs take over they read the first lines; the rest is lost. -/
  read : turns.flatMap Turn.taken = turns.flatMap (fun t => t.reads.flatten) ++ s.machine.input.own
  /-- No line is lost where no program keeps octets that it does not read. -/
  inStep : (∀ t ∈ turns, t.held = []) →
    stdin = turns.flatMap (fun t => t.source ++ t.reads.flatten) ++ s.machine.input.pending
  /-- With an input of one chunk, the first program that reads a line takes over all that is left. -/
  short : stdin.length ≤ chunkSize → ∀ before t after, turns = before ++ t :: after → t.reads ≠ [] →
    after = [] ∧ s.machine.input.pending = []

/-- The prompt and its programs take the lines of the input in order, and only what a program holds back is lost. -/
theorem prompt_accounts {fuel : Nat} {warnings : Bool} {stdin : List UInt8} {clock : Nat} {f : Finish}
    (h : prompt fuel warnings stdin clock = some f) :
    ∃ turns s, Turns fuel (newSession stdin clock) turns s ∧ Accounts fuel stdin turns s f := by
  obtain ⟨turns, s, hturns, hends⟩ := promptLoop_turns h
  have hpending := hturns.pending
  have hown := hturns.own
  change stdin = _ at hpending
  refine ⟨turns, s, hturns, hends, hpending, hown, fun hheld => ?_, fun hle before t after heq hread => ?_⟩
  · have htaken := hturns.taken rfl hheld
    rw [hpending, List.flatMap_congr fun t ht => by rw [htaken t ht]]
  · subst heq
    exact hturns.short ⟨rfl, .inr ⟨rfl, hle⟩⟩ hread

/-- A program that reads one of the two lines after it. -/
theorem prompt_accounts_for_read :
    let stdin := Utf8.encode "print read();\nhello\nprint 1;\n"
    let f : Finish := ⟨0, Utf8.encode "> hello\n> \n", ""⟩
    prompt 20 true stdin 0 = some f ∧ ∃ turns s, Turns 20 (newSession stdin 0) turns s ∧ Accounts 20 stdin turns s f := by
  intro stdin f
  have h : prompt 20 true stdin 0 = some f := by decide +kernel
  exact ⟨h, prompt_accounts h⟩

/-- The program reads `hello` and keeps the line after it, so the prompt ends with that line neither run nor read. -/
theorem prompt_loses_line :
    let stdin := Utf8.encode "print read();\nhello\nprint 1;\n"
    prompt 20 true stdin 0 = some ⟨0, Utf8.encode "> hello\n> \n", ""⟩ ∧
      ∀ turns s, Turns 20 (newSession stdin 0) turns s → s.machine.input.pending = [] →
        stdin ≠ turns.flatMap fun t => t.source ++ t.reads.flatten := by
  refine ⟨by decide +kernel, fun turns s hturns hend hall => ?_⟩
  cases hturns with
  | nil => revert hend; decide +kernel
  | @cons _ t s' ts _ ht hrest =>
    obtain ⟨text, report, htext, hrun, -⟩ := ht.runs
    have hsource : t.source = Utf8.encode "print read();\n" := ht.source.trans (by decide +kernel)
    obtain rfl : "print read();\n" = text := by
      rw [hsource, show Utf8.decode (Utf8.encode "print read();\n") = .ok "print read();\n" by decide +kernel] at htext
      exact Except.ok.inj htext
    have hinput : ((prompted (newSession (Utf8.encode "print read();\nhello\nprint 1;\n") 0)).run 20 "print read();\n").map
        (fun p => p.2.machine.input) = some ⟨Utf8.encode "print 1;\n", [], []⟩ := by decide +kernel
    rw [hrun] at hinput
    have hinput : s'.machine.input = ⟨Utf8.encode "print 1;\n", [], []⟩ := Option.some.inj hinput
    obtain rfl := hrest.none_of_pending (by rw [hinput]; rfl)
    -- with nothing left for the prompt, the program would have read all that it has taken over
    have htaken : t.taken = t.reads.flatten := by
      have hparts := ht.pending
      rw [hinput] at hparts
      change _ = t.source ++ t.taken ++ [] at hparts
      rw [List.append_nil] at hparts
      rw [List.flatMap_cons, List.flatMap_nil, List.append_nil] at hall
      exact List.append_cancel_left (hparts.symm.trans hall)
    have hheld := ht.own
    rw [htaken, ht.held, hinput] at hheld
    have hempty : Utf8.encode "print 1;\n" = [] := List.self_eq_append_right.mp hheld
    exact absurd hempty (by decide +kernel)

end CommandLine

end Lox
