import Lox.Console.Input

/-!
# Lines of two readers

The prompt and the programs that it runs read from one stream, but a program reads through a buffer of its own. Each line
that a reader gets is the first one of all that this reader still sees. Octets pass from the prompt's side to the program's,
and never back.
-/

namespace Lox

/-- The octets up to and with the first line end, or all of them if there is none. -/
def firstLine (bytes : List UInt8) : List UInt8 := ((splitLine? bytes).map Prod.fst).getD bytes

section
variable {bytes line rest : List UInt8}

theorem splitLine?_cons_of_ne {b : UInt8} (hb : b ≠ newline) (bytes : List UInt8) :
    splitLine? (b :: bytes) = (splitLine? bytes).map fun (line, rest) => (b :: line, rest) := by
  rw [splitLine?, if_neg hb]

theorem splitLine?_parts : ∀ {bytes line rest : List UInt8}, splitLine? bytes = some (line, rest) →
    line ++ rest = bytes ∧ line ≠ []
  | [], _, _, h => by cases h
  | b :: bytes, line, rest, h => by
    by_cases hb : b = newline
    · rw [splitLine?, if_pos hb] at h
      cases h
      exact ⟨rfl, nofun⟩
    · rw [splitLine?_cons_of_ne hb] at h
      obtain ⟨⟨line', rest'⟩, h', he⟩ := Option.map_eq_some_iff.mp h
      cases he
      exact ⟨congrArg (b :: ·) (splitLine?_parts h').1, nofun⟩

/-- What comes after the line end makes no difference. -/
theorem splitLine?_append : ∀ {bytes line rest : List UInt8} (more : List UInt8), splitLine? bytes = some (line, rest) →
    splitLine? (bytes ++ more) = some (line, rest ++ more)
  | [], _, _, _, h => by cases h
  | b :: bytes, line, rest, more, h => by
    by_cases hb : b = newline
    · rw [splitLine?, if_pos hb] at h
      cases h
      rw [List.cons_append, splitLine?, if_pos hb]
    · rw [splitLine?_cons_of_ne hb] at h
      obtain ⟨⟨line', rest'⟩, h', he⟩ := Option.map_eq_some_iff.mp h
      cases he
      rw [List.cons_append, splitLine?_cons_of_ne hb, splitLine?_append more h']
      rfl

/-- Without a line end the line goes on in what comes after. -/
theorem splitLine?_append_of_none : ∀ {bytes : List UInt8} (more : List UInt8), splitLine? bytes = none →
    splitLine? (bytes ++ more) = (splitLine? more).map fun (line, rest) => (bytes ++ line, rest)
  | [], more, _ => by cases h : splitLine? more <;> simp [h]
  | b :: bytes, more, h => by
    by_cases hb : b = newline
    · rw [splitLine?, if_pos hb] at h; cases h
    · rw [splitLine?_cons_of_ne hb, Option.map_eq_none_iff] at h
      rw [List.cons_append, splitLine?_cons_of_ne hb, splitLine?_append_of_none more h, Option.map_map]
      rfl

theorem firstLine_of_some (h : splitLine? bytes = some (line, rest)) : firstLine bytes = line := by
  rw [firstLine, h]; rfl

theorem firstLine_of_none (h : splitLine? bytes = none) : firstLine bytes = bytes := by
  rw [firstLine, h]; rfl

@[simp] theorem firstLine_eq_nil : firstLine bytes = [] ↔ bytes = [] := by
  cases h : splitLine? bytes with
  | none => rw [firstLine_of_none h]
  | some p =>
    obtain ⟨line, rest⟩ := p
    obtain ⟨rfl, hne⟩ := splitLine?_parts h
    rw [firstLine_of_some h]
    exact ⟨fun he => absurd he hne, fun he => absurd (List.append_eq_nil_iff.mp he).1 hne⟩

end

/-! ## A buffer and a stream -/

section
variable (buffer stream : List UInt8)

theorem le_fetched (n : Nat) : n ≤ (n + chunkSize - 1) / chunkSize * chunkSize := by
  simp only [chunkSize]
  omega

theorem takeLine_line : (takeLine buffer stream).1 = firstLine (buffer ++ stream) := by
  unfold takeLine
  split
  · rename_i line rest h
    exact (firstLine_of_some (splitLine?_append stream h)).symm
  · rename_i h
    have hjoin := splitLine?_append_of_none stream h
    split
    · rename_i hs
      rw [hs] at hjoin
      exact (firstLine_of_none hjoin).symm
    · rename_i line rest hs
      rw [hs] at hjoin
      exact (firstLine_of_some hjoin).symm

/-- A part of the stream is fetched, and with the buffer it makes up the line and what is left in the buffer. -/
theorem takeLine_fetched : ∃ fetched, stream = fetched ++ (takeLine buffer stream).2.2 ∧
    buffer ++ fetched = (takeLine buffer stream).1 ++ (takeLine buffer stream).2.1 := by
  unfold takeLine
  split
  · rename_i line rest h
    exact ⟨[], rfl, by rw [List.append_nil, (splitLine?_parts h).1]⟩
  · split
    · exact ⟨stream, (List.append_nil _).symm, (List.append_nil _).symm⟩
    · rename_i line rest hs
      obtain ⟨rfl, -⟩ := splitLine?_parts hs
      have hle := le_fetched line.length
      refine ⟨_, (List.take_append_drop _ _).symm, ?_⟩
      dsimp only
      rw [List.append_assoc, List.take_append, List.take_of_length_le hle, List.drop_left]

/-- Nothing is lost and nothing changes its place. -/
theorem takeLine_parts :
    (takeLine buffer stream).1 ++ ((takeLine buffer stream).2.1 ++ (takeLine buffer stream).2.2) = buffer ++ stream := by
  obtain ⟨fetched, hstream, hline⟩ := takeLine_fetched buffer stream
  rw [← List.append_assoc, ← hline, List.append_assoc, ← hstream]

/-- A stream of at most one chunk is fetched as a whole, if at all. -/
theorem takeLine_drains (h : stream = [] ∨ splitLine? buffer = none ∧ stream.length ≤ chunkSize) :
    (takeLine buffer stream).2.2 = [] := by
  unfold takeLine
  split
  · rename_i hb
    obtain h | h := h
    · exact h
    · rw [h.1] at hb; cases hb
  · have hs : stream.length ≤ chunkSize := h.elim (fun h => h ▸ Nat.zero_le _) And.right
    split
    · rfl
    · rename_i line rest hl
      have hne := List.length_pos_iff.mpr (splitLine?_parts hl).2
      refine List.drop_eq_nil_of_le (Nat.le_trans hs ?_)
      simp only [chunkSize]
      omega

end

namespace Input

variable (i : Input)

/-- What the prompt can still see. -/
def pending : List UInt8 := i.shared ++ i.stream

/-! ## The prompt -/

theorem promptLine_line : i.promptLine.1 = firstLine i.pending := takeLine_line i.shared i.stream

theorem promptLine_parts : i.promptLine.1 ++ i.promptLine.2.pending = i.pending := takeLine_parts i.shared i.stream

/-! ## The program -/

theorem programLine_of_own {line rest : List UInt8} (h : splitLine? i.own = some (line, rest)) :
    i.programLine = (line, { i with own := rest }) := by
  rw [programLine, h]

theorem programLine_of_none (h : splitLine? i.own = none) :
    i.programLine = ((takeLine (i.own ++ i.shared) i.stream).1, ⟨(takeLine (i.own ++ i.shared) i.stream).2.1, [],
      (takeLine (i.own ++ i.shared) i.stream).2.2⟩) := by
  rw [programLine, h]

theorem programLine_line : i.programLine.1 = firstLine (i.own ++ i.pending) := by
  cases h : splitLine? i.own with
  | some p => rw [programLine_of_own i h, firstLine_of_some (splitLine?_append _ h)]
  | none => rw [programLine_of_none i h, takeLine_line, pending, List.append_assoc]

/-- At the end of the input there is nothing to take. -/
theorem programLine_of_nil (h : i.programLine.1 = []) : i.programLine.2 = i := by
  rw [programLine_line, firstLine_eq_nil, pending] at h
  obtain ⟨own, shared, stream⟩ := i
  obtain ⟨rfl, h⟩ := List.append_eq_nil_iff.mp h
  obtain ⟨rfl, rfl⟩ := List.append_eq_nil_iff.mp h
  rfl

/-- The program takes octets over from the prompt, and gets its line from those that it has then. -/
theorem programLine_parts : ∃ taken, i.pending = taken ++ i.programLine.2.pending ∧
    i.own ++ taken = i.programLine.1 ++ i.programLine.2.own := by
  cases h : splitLine? i.own with
  | some p =>
    rw [programLine_of_own i h]
    exact ⟨[], rfl, by rw [List.append_nil, (splitLine?_parts h).1]⟩
  | none =>
    obtain ⟨fetched, hstream, hline⟩ := takeLine_fetched (i.own ++ i.shared) i.stream
    rw [programLine_of_none i h]
    refine ⟨i.shared ++ fetched, ?_, by rw [← List.append_assoc, hline]⟩
    rw [pending, pending, List.nil_append, List.append_assoc, ← hstream]

end Input

end Lox
