import Mathlib.Data.List.DropRight

/-!
# The lines of a text

A line is ended by one line feed, or by one carriage return and line feed, and the last one may be ended by nothing. All
other characters are content, carriage returns among them.
-/

namespace Lox

inductive LineEnd where
  | missing
  | feed
  | returnFeed
deriving DecidableEq, Repr

def LineEnd.text : LineEnd → List Char
  | missing => []
  | feed => ['\n']
  | returnFeed => ['\r', '\n']

structure Line where
  content : List Char
  ending : LineEnd
deriving DecidableEq, Repr

namespace Line

def text (l : Line) : List Char := l.content ++ l.ending.text

/-- The content without the carriage returns that it closes with. -/
def stripped (l : Line) : List Char := l.content.rdropWhile (· = '\r')

/-- The content is not cut short where it is stripped of carriage returns. -/
def Whole (l : Line) : Prop := l.content.getLast? ≠ some '\r'

instance (l : Line) : Decidable l.Whole := inferInstanceAs (Decidable (_ ≠ _))

/-- The line of which a line feed is left out. -/
def ofFeed (cs : List Char) : Line :=
  if cs.getLast? = some '\r' then ⟨cs.dropLast, .returnFeed⟩ else ⟨cs, .feed⟩

def cons (c : Char) (l : Line) : Line := { l with content := c :: l.content }

end Line

def linesOf : List Char → List Line
  | [] => []
  | '\n' :: cs => ⟨[], .feed⟩ :: linesOf cs
  | '\r' :: '\n' :: cs => ⟨[], .returnFeed⟩ :: linesOf cs
  | c :: cs =>
    match linesOf cs with
    | [] => [⟨[c], .missing⟩]
    | l :: ls => l.cons c :: ls

section
variable {cs : List Char}

/-- Nothing is lost and nothing changes its place. -/
theorem linesOf_text (cs : List Char) : (linesOf cs).flatMap Line.text = cs := by
  fun_induction linesOf cs with
  | case1 => rfl
  | case2 cs ih => rw [List.flatMap_cons, ih]; rfl
  | case3 cs ih => rw [List.flatMap_cons, ih]; rfl
  | case4 c cs _ _ hnil ih => rw [hnil] at ih; rw [← ih]; rfl
  | case5 c cs _ _ l ls hcons ih => rw [hcons] at ih; rw [← ih]; rfl

theorem linesOf_cons {c : Char} (hn : c ≠ '\n') (hr : c = '\r' → cs.head? ≠ some '\n') :
    linesOf (c :: cs) = match linesOf cs with
      | [] => [⟨[c], .missing⟩]
      | l :: ls => l.cons c :: ls := by
  rw [linesOf]
  · exact hn
  · rintro cs rfl rfl
    exact hr rfl rfl

theorem linesOf_eq_nil : linesOf cs = [] ↔ cs = [] :=
  ⟨fun h => by rw [← linesOf_text cs, h]; rfl, fun h => h ▸ rfl⟩

theorem linesOf_of_notMem (hne : cs ≠ []) (hcs : '\n' ∉ cs) : linesOf cs = [⟨cs, .missing⟩] := by
  induction cs with
  | nil => exact absurd rfl hne
  | cons c cs ih =>
    have hn := List.ne_of_not_mem_cons hcs
    replace hcs := List.not_mem_of_not_mem_cons hcs
    rw [linesOf_cons hn.symm fun _ h => hcs (List.mem_of_mem_head? h)]
    cases cs with
    | nil => rfl
    | cons d cs => rw [ih (List.cons_ne_nil d cs) hcs]; rfl

theorem Line.ofFeed_cons {c : Char} (h : c = '\r' → cs ≠ []) : Line.ofFeed (c :: cs) = (Line.ofFeed cs).cons c := by
  cases cs with
  | nil =>
    have hc : [c].getLast? ≠ some '\r' := fun hc => h (Option.some.inj hc) rfl
    rw [ofFeed, if_neg hc]
    rfl
  | cons d cs =>
    rw [ofFeed, ofFeed, List.getLast?_cons_cons, List.dropLast_cons_cons]
    split <;> rfl

theorem linesOf_feed (hcs : '\n' ∉ cs) (rest : List Char) : linesOf (cs ++ '\n' :: rest) = .ofFeed cs :: linesOf rest := by
  induction cs with
  | nil => rfl
  | cons c cs ih =>
    have hn := List.ne_of_not_mem_cons hcs
    replace hcs := List.not_mem_of_not_mem_cons hcs
    by_cases hr : c = '\r' ∧ cs = []
    · obtain ⟨rfl, rfl⟩ := hr
      rfl
    · have hne : c = '\r' → cs ≠ [] := fun hc hnil => hr ⟨hc, hnil⟩
      rw [List.cons_append, linesOf_cons hn.symm, ih hcs, Line.ofFeed_cons hne]
      intro hc hhead
      cases cs with
      | nil => exact hne hc rfl
      | cons d cs => exact List.ne_of_not_mem_cons hcs (Option.some.inj hhead).symm

end

/-! ## Stripped lines -/

namespace Line

variable (l : Line)

/-- What a line is stripped of is nothing but carriage returns. -/
theorem content_eq_stripped : ∃ n, l.content = l.stripped ++ List.replicate n '\r' := by
  have htake : l.content.rtakeWhile (· = '\r') = List.replicate _ '\r' :=
    List.eq_replicate_of_mem fun c hc => by simpa using List.mem_rtakeWhile_imp hc
  exact ⟨_, by rw [← htake, stripped, List.rdropWhile_append_rtakeWhile]⟩

theorem stripped_eq_content_iff : l.stripped = l.content ↔ l.Whole := by
  rw [stripped, List.rdropWhile_eq_self_iff, Whole]
  by_cases hl : l.content = []
  · simp [hl]
  · simp [hl, List.getLast?_eq_some_getLast hl]

theorem stripped_ofFeed (cs : List Char) : (ofFeed cs).stripped = cs.rdropWhile (· = '\r') := by
  unfold ofFeed
  split
  · rename_i h
    obtain ⟨cs, rfl⟩ := List.getLast?_eq_some_iff.mp h
    rw [stripped, List.dropLast_concat, List.rdropWhile_concat_pos _ _ _ (by decide)]
  · rfl

end Line

end Lox
