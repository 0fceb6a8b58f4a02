import Lox.Proofs.Evaluation.Reads
import Lox.Proofs.Text.Lines
import Lox.Proofs.Text.Octets

/-!
# What `read` gives

A call of `read` gives the next line of the input. It drops the line end, and with it every carriage return that stands right
before it, so a line whose content closes with carriage returns comes back short.
-/

namespace Lox

/-! ## Lines of octets -/

theorem splitLine?_some {bytes line rest : List UInt8} (h : splitLine? bytes = some (line, rest)) :
    ∃ p, line = p ++ [newline] ∧ newline ∉ p := by
  induction bytes generalizing line with
  | nil => cases h
  | cons b bytes ih =>
    by_cases hb : b = newline
    · rw [splitLine?, if_pos hb] at h
      cases h
      exact ⟨[], by rw [hb]; rfl, List.not_mem_nil⟩
    · rw [splitLine?_cons_of_ne hb] at h
      obtain ⟨⟨line', rest'⟩, h', he⟩ := Option.map_eq_some_iff.mp h
      cases he
      obtain ⟨p, rfl, hp⟩ := ih h'
      exact ⟨b :: p, rfl, List.not_mem_cons_of_ne_of_not_mem (Ne.symm hb) hp⟩

theorem splitLine?_none : ∀ {bytes : List UInt8}, splitLine? bytes = none → newline ∉ bytes
  | [], _ => nofun
  | b :: bytes, h => by
    by_cases hb : b = newline
    · rw [splitLine?, if_pos hb] at h
      cases h
    · rw [splitLine?_cons_of_ne hb, Option.map_eq_none_iff] at h
      exact List.not_mem_cons_of_ne_of_not_mem (Ne.symm hb) (splitLine?_none h)

theorem trimLineEnds_of_notMem {cs : List Char} (hcs : '\n' ∉ cs) : trimLineEnds cs = cs.rdropWhile (· = '\r') := by
  change cs.rdropWhile isLineEnd = _
  induction cs using List.reverseRecOn with
  | nil => rfl
  | append_singleton cs c ih =>
    have hc : c ≠ '\n' := fun h => hcs (h ▸ List.mem_append_right _ (List.mem_singleton_self c))
    have hend : isLineEnd c = decide (c = '\r') := by simp [isLineEnd, hc]
    rw [List.rdropWhile_concat, List.rdropWhile_concat, hend, ih fun h => hcs (List.mem_append_left _ h)]

/-! ## The lines that are left -/

namespace Input

/-- All that programs can still read. -/
def unread (i : Input) : List UInt8 := i.own ++ i.pending

/-- What programs can still read is text that has those lines. -/
def Holds (i : Input) (lines : List Line) : Prop :=
  ∃ text, Utf8.decode i.unread = .ok text ∧ linesOf text.toList = lines

variable {i : Input} {l : Line} {lines : List Line}

theorem programLine_unread (i : Input) : i.programLine.1 ++ i.programLine.2.unread = i.unread := by
  obtain ⟨taken, hpending, hown⟩ := i.programLine_parts
  rw [unread, unread, hpending, ← List.append_assoc, ← hown, List.append_assoc]

theorem Holds.eq_nil_iff (h : i.Holds lines) : lines = [] ↔ i.unread = [] := by
  obtain ⟨text, htext, rfl⟩ := h
  rw [linesOf_eq_nil, String.toList_eq_nil_iff]
  constructor
  · rintro rfl
    exact Utf8.decode_eq_empty.mp htext
  · intro h
    rw [h] at htext
    exact (Except.ok.inj htext).symm

/-- A line is left where octets are; it is the next one to be taken, and those after it are left then. -/
theorem Holds.programLine (h : i.Holds lines) (hne : i.unread ≠ []) : ∃ l ls text, lines = l :: ls ∧
    i.programLine.2.Holds ls ∧ Utf8.decode i.programLine.1 = .ok text ∧ trimLineEnds text.toList = l.stripped := by
  have hlines := h.eq_nil_iff.not.mpr hne
  obtain ⟨text, htext, rfl⟩ := h
  have hparts := i.programLine_unread
  have hline : i.programLine.1 = firstLine i.unread := i.programLine_line
  cases hs : splitLine? i.unread with
  | none =>
    rw [hline, firstLine_of_none hs] at hparts ⊢
    have hnone := Utf8.newline_notMem_of_decode (splitLine?_none hs) htext
    have hrest : i.programLine.2.unread = [] := List.append_cancel_left (hparts.trans (List.append_nil _).symm)
    exact ⟨_, _, text, linesOf_of_notMem (linesOf_eq_nil.not.mp hlines) hnone, ⟨"", Utf8.decode_eq_empty.mpr hrest, rfl⟩,
      htext, trimLineEnds_of_notMem hnone⟩
  | some p =>
    obtain ⟨line, rest⟩ := p
    obtain ⟨p, rfl, hp⟩ := splitLine?_some hs
    have hjoin := (splitLine?_parts hs).1
    rw [hline, firstLine_of_some hs] at hparts ⊢
    rw [← hjoin] at hparts htext
    rw [List.append_assoc] at htext
    obtain ⟨q, cs, hcs, hq, hdecode, hrest⟩ := Utf8.decode_newline hp htext
    refine ⟨_, _, _, by rw [hcs, linesOf_feed hq], ⟨_, ?_, by rw [String.toList_ofList]⟩, hdecode, ?_⟩
    · rw [List.append_cancel_left hparts]
      exact hrest
    · rw [String.toList_ofList, Line.stripped_ofFeed, ← trimLineEnds_of_notMem hq]
      exact List.rdropWhile_concat_pos _ _ _ rfl

end Input

/-! ## Calls of `read` -/

/-- What a call gives that takes the line. -/
def Line.answer (l : Line) : Value := .string (String.ofList l.stripped)

theorem Eval.readLine_of_decode {m : Machine} {text : String} (hne : m.input.programLine.1 ≠ [])
    (h : Utf8.decode m.input.programLine.1 = .ok text) (line : Nat) : readLine line m =
      .done (.string (String.ofList (trimLineEnds text.toList))) { m with input := m.input.programLine.2 } := by
  unfold readLine
  dsimp only
  rw [h]
  split
  · exact absurd ‹_› hne
  · rename_i he _
    rw [Except.ok.inj he]
  · rename_i he _
    cases he

/-- A call takes the next line; after the last one it gives `nil`. -/
theorem Eval.readLine_of_holds {m : Machine} {lines : List Line} (h : m.input.Holds lines) (line : Nat) :
    readLine line m = .done ((lines.head?.map Line.answer).getD .nil) { m with input := m.input.programLine.2 } ∧
      m.input.programLine.2.Holds lines.tail := by
  by_cases hne : m.input.unread = []
  · obtain rfl := h.eq_nil_iff.mpr hne
    have hline : m.input.programLine.1 = [] := (List.append_eq_nil_iff.mp (m.input.programLine_unread.trans hne)).1
    rw [m.input.programLine_of_nil hline]
    refine ⟨?_, h⟩
    unfold readLine
    dsimp only
    rw [hline, m.input.programLine_of_nil hline]
    rfl
  · obtain ⟨l, ls, text, rfl, hrest, hdecode, htrim⟩ := h.programLine hne
    have hline : m.input.programLine.1 ≠ [] := by
      rw [m.input.programLine_line]
      exact firstLine_eq_nil.not.mpr hne
    exact ⟨by rw [readLine_of_decode hline hdecode, htrim]; rfl, hrest⟩

/-- Calls of `read`, one after the other, give those values. What happens in between leaves the input as it is. -/
inductive Input.Answers : Input → List Value → Input → Prop
  | none {i} : Answers i [] i
  | call {m m' : Machine} {args line v vs j} : Eval.callNative .read args line m = .done v m' → Answers m'.input vs j →
      Answers m.input (v :: vs) j

namespace Input.Answers

variable {i j : Input} {vs : List Value} {lines : List Line}

theorem holds (h : i.Answers vs j) (hi : i.Holds lines) : j.Holds (lines.drop vs.length) := by
  induction h generalizing lines with
  | none => exact hi
  | @call m m' _ line v vs j hcall _ ih =>
    obtain ⟨hread, hrest⟩ := Eval.readLine_of_holds hi line
    cases hread.symm.trans hcall
    rw [List.length_cons, ← List.drop_tail]
    exact ih hrest

/-- The lines in order, and after them `nil` for ever. -/
theorem values (h : i.Answers vs j) (hi : i.Holds lines) :
    vs = (lines.map Line.answer).take vs.length ++ List.replicate (vs.length - lines.length) Value.nil := by
  induction h generalizing lines with
  | none => simp
  | @call m m' _ line v vs j hcall _ ih =>
    obtain ⟨hread, hrest⟩ := Eval.readLine_of_holds hi line
    cases hread.symm.trans hcall
    have ih := ih hrest
    cases lines with
    | nil => exact congrArg (Value.nil :: ·) (by simpa using ih)
    | cons l ls =>
      rw [List.length_cons, List.length_cons, List.map_cons, List.take_succ_cons, Nat.add_sub_add_right]
      exact congrArg (l.answer :: ·) ih

/-- However many calls there were, the next one gives a value. -/
theorem next (h : i.Answers vs j) (hi : i.Holds lines) {m : Machine} (hm : m.input = j) (args : List Value) (line : Nat) :
    ∃ v m', Eval.callNative .read args line m = .done v m' := by
  subst hm
  exact ⟨_, _, (Eval.readLine_of_holds (h.holds hi) line).1⟩

end Input.Answers

/-- The call of `read` that the evaluation has come to gives the value. -/
inductive Moment.Reads : Moment → Value → Prop
  | read {n args line m v m'} : Eval.callNative .read args line m = .done v m' →
    Reads ⟨n + 1, .apply (.native .read) args line, m⟩ v

/-- What is taken from an input that holds lines, calls of `read` give. -/
theorem Input.Hands.answers {i j : Input} {taken : List (List UInt8)} {lines : List Line} {comes : Moment → Prop}
    (h : i.Hands taken j) (hi : i.Holds lines) (hgets : ∀ bytes ∈ taken, ∃ y, comes y ∧ y.Gets bytes) :
    ∃ vs, i.Answers vs j ∧ ∀ v ∈ vs, ∃ y, comes y ∧ y.Reads v := by
  induction h generalizing lines with
  | done => exact ⟨[], .none, nofun⟩
  | @line i taken j hne _ ih =>
    obtain ⟨⟨y, hy, hget⟩, hgets⟩ := List.forall_mem_cons.mp hgets
    obtain ⟨l, ls, text, -, hrest, hdecode, -⟩ := hi.programLine fun h => hne <| by
      rw [i.programLine_line]
      exact firstLine_eq_nil.mpr h
    obtain ⟨vs, hvs, hreads⟩ := ih hrest hgets
    generalize hbytes : i.programLine.1 = bytes at hne hget hdecode
    obtain @⟨n, args, line, m⟩ := hget
    have hcall {m' : Machine} (h : m'.input.programLine.1 = m.input.programLine.1) :=
      Eval.readLine_of_decode (m := m') (by rw [h]; exact hne) (by rw [h]; exact hdecode) line
    have hfirst : Eval.callNative .read args line { m with input := i } = _ := hcall hbytes
    exact ⟨_ :: vs, .call hfirst hvs,
      List.forall_mem_cons.mpr ⟨⟨_, hy, .read (hcall rfl)⟩, hreads⟩⟩

/-! ## The whole input -/

/-- What programs get of an input that is the text. -/
structure Input.ReadsOff (i : Input) (text : String) : Prop where
  /-- However many calls there were, the next one gives a value. -/
  total : ∀ vs j, i.Answers vs j → ∀ m args line, m.input = j → ∃ v m', Eval.callNative .read args line m = .done v m'
  /-- They give the lines in order, stripped of their carriage returns, and after them `nil` for ever. -/
  values : ∀ vs j, i.Answers vs j →
    vs = ((linesOf text.toList).map fun l => .string (String.ofList l.stripped)).take vs.length ++
      List.replicate (vs.length - (linesOf text.toList).length) .nil
  /-- Lines whose content closes with a carriage return come back short, and only those. -/
  whole : ∀ l ∈ linesOf text.toList, l.stripped = l.content ↔ l.Whole
  /-- They come back short of carriage returns, and of nothing else. -/
  short : ∀ l ∈ linesOf text.toList, ∃ n, l.content = l.stripped ++ List.replicate n '\r'
  /-- Where there is no such line, all that is missing in what calls have given are the line ends. -/
  recovered : (∀ l ∈ linesOf text.toList, l.Whole) → ∀ vs j, i.Answers vs j → .nil ∈ vs →
    ∃ (contents : List (List Char)) (ends : List LineEnd) (k : Nat), contents.length = ends.length ∧
      vs = contents.map (fun cs => .string (String.ofList cs)) ++ List.replicate k .nil ∧
      text.toList = (List.zipWith (fun cs e => cs ++ e.text) contents ends).flatten
  /-- What an evaluation takes from the input, calls of `read` that it has come to have given. -/
  programs : ∀ n (a : Activity) m m', m.input = i → (a.run n m).EndsIn m' →
    ∃ vs, i.Answers vs m'.input ∧ ∀ v ∈ vs, ∃ y, Moment.Reaches ⟨n, a, m⟩ y ∧ y.Reads v

/-- Programs read the lines of the input in order, each without its line end and the carriage returns before it. -/
theorem lines_are_read {i : Input} {text : String} (h : Utf8.decode i.unread = .ok text) : i.ReadsOff text := by
  have hi : i.Holds (linesOf text.toList) := ⟨text, h, rfl⟩
  refine ⟨fun vs j hvs m args line hm => hvs.next hi hm args line, fun vs j hvs => hvs.values hi,
    fun l _ => l.stripped_eq_content_iff, fun l _ => l.content_eq_stripped, fun hwhole vs j hvs hnil => ?_,
    fun n a m m' hm he => ?_⟩
  · have hvalues := hvs.values hi
    have hmap : (linesOf text.toList).map Line.answer =
        ((linesOf text.toList).map Line.content).map fun cs => .string (String.ofList cs) := by
      rw [List.map_map]
      exact List.map_congr_left fun l hl =>
        congrArg (fun cs => Value.string (String.ofList cs)) (l.stripped_eq_content_iff.mpr (hwhole l hl))
    have hlong : (linesOf text.toList).length ≤ vs.length := by
      by_contra hlt
      rw [Nat.sub_eq_zero_of_le (Nat.le_of_not_le hlt), List.replicate_zero, List.append_nil] at hvalues
      rw [hvalues] at hnil
      obtain ⟨l, -, hl⟩ := List.mem_map.mp (List.mem_of_mem_take hnil)
      cases hl
    refine ⟨(linesOf text.toList).map Line.content, (linesOf text.toList).map Line.ending,
      vs.length - (linesOf text.toList).length, by rw [List.length_map, List.length_map], ?_, ?_⟩
    · rw [← hmap]
      rwa [List.take_of_length_le (by rwa [List.length_map])] at hvalues
    · rw [List.zipWith_map, List.zipWith_self]
      exact (linesOf_text text.toList).symm
  · obtain ⟨taken, hhands, hgets⟩ := draws n a m m' he
    rw [hm] at hhands
    exact hhands.answers hi hgets

/-- Two calls for two lines, one for an empty line between them, and one more. -/
theorem lines_are_read_of_three : Utf8.decode (Input.ofBytes (Utf8.encode "one\r\n\ntwo")).unread = .ok "one\r\n\ntwo" ∧
    ∀ vs j, (Input.ofBytes (Utf8.encode "one\r\n\ntwo")).Answers vs j → vs.length = 4 →
      vs = [.string "one", .string "", .string "two", .nil] := by
  have h : Utf8.decode (Input.ofBytes (Utf8.encode "one\r\n\ntwo")).unread = .ok "one\r\n\ntwo" := by decide +kernel
  refine ⟨h, fun vs j hvs hlength => ?_⟩
  have hvalues := (lines_are_read h).values vs j hvs
  rw [hlength] at hvalues
  exact hvalues.trans rfl

/-- The line ends with a carriage return and a line feed, but the carriage return before them is dropped too. -/
theorem read_drops_returns : linesOf "a\r\r\n".toList = [⟨['a', '\r'], .returnFeed⟩] ∧
    ∀ (m : Machine) args line, m.input = .ofBytes (Utf8.encode "a\r\r\n") →
      ∃ m', Eval.callNative .read args line m = .done (.string "a") m' := by
  have h : (Input.ofBytes (Utf8.encode "a\r\r\n")).Holds (linesOf "a\r\r\n".toList) := ⟨_, by decide +kernel, rfl⟩
  refine ⟨by decide +kernel, fun m args line hm => ?_⟩
  rw [← hm] at h
  exact ⟨_, (Eval.readLine_of_holds h line).1⟩

end Lox
