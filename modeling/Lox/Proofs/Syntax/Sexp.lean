import Lox.Syntax.Polish
import Lox.Proofs.Syntax.Alike

/-!
# Prefix forms as trees of words

The text with operators first is that of a tree, whose nodes are a word and what follows it, in parentheses. Where no word has
a blank or a parenthesis in it, the text tells the tree.
-/

namespace Lox

/-- A word, or a word and what it is applied to. -/
inductive Sexp where
  | word (text : String)
  | node (head : String) (items : List Sexp)

mutual

def Sexp.chars : Sexp → List Char
  | .word text => text.toList
  | .node head items => '(' :: (head.toList ++ charsItems items)

/-- The rest of a node, up to its closing parenthesis. -/
def charsItems : List Sexp → List Char
  | [] => [')']
  | s :: ss => ' ' :: (s.chars ++ charsItems ss)

end

def divides (c : Char) : Bool := c = ' ' || c = '(' || c = ')'

/-- There is something in the text, but no blank and no parenthesis. -/
structure Undivided (text : String) : Prop where
  nonempty : text.toList ≠ []
  chars : ∀ c ∈ text.toList, divides c = false

mutual

def Sexp.OfWords : Sexp → Prop
  | .word text => Undivided text
  | .node head items => Undivided head ∧ AllOfWords items

def AllOfWords : List Sexp → Prop
  | [] => True
  | s :: ss => s.OfWords ∧ AllOfWords ss

end

/-! ## Texts tell trees -/

/-- A word ends here. -/
def AtEnd (rest : List Char) : Prop := ∀ c ∈ rest.head?, divides c = true

theorem atEnd_charsItems (ss : List Sexp) (rest : List Char) : AtEnd (charsItems ss ++ rest) := by
  cases ss with
  | nil =>
    rintro _ ⟨⟩
    rfl
  | cons s ss =>
    rintro _ ⟨⟩
    rfl

theorem Undivided.unique {text text' : String} {rest rest' : List Char} (h : Undivided text) (h' : Undivided text') (hr : AtEnd rest)
    (hr' : AtEnd rest') (heq : text.toList ++ rest = text'.toList ++ rest') : text = text' ∧ rest = rest' := by
  have split : ∀ {text : String} {rest : List Char}, Undivided text → AtEnd rest →
      (text.toList ++ rest).takeWhile (fun c => !divides c) = text.toList := by
    intro text rest h hr
    rw [List.takeWhile_append_of_pos fun c hc => by rw [h.chars c hc]; rfl]
    cases rest with
    | nil => simp
    | cons c rest => rw [List.takeWhile_cons_of_neg (by rw [hr c rfl]; exact Bool.false_ne_true), List.append_nil]
  have htext : text.toList = text'.toList := by rw [← split h hr, heq, split h' hr']
  refine ⟨String.toList_inj.mp htext, ?_⟩
  rwa [htext, List.append_cancel_left_eq] at heq

/-- A node does not begin like a word. -/
theorem Undivided.ne_node {text : String} (h : Undivided text) (rest more : List Char) : text.toList ++ rest ≠ '(' :: more := by
  intro heq
  obtain ⟨c, cs, hc⟩ := List.exists_cons_of_ne_nil h.nonempty
  have hchar := h.chars c (hc ▸ List.mem_cons_self)
  rw [hc, List.cons_append] at heq
  rw [(List.cons.inj heq).1] at hchar
  cases hchar

theorem chars_node_append (head : String) (items : List Sexp) (rest : List Char) :
    (Sexp.node head items).chars ++ rest = '(' :: (head.toList ++ (charsItems items ++ rest)) := by
  rw [Sexp.chars, List.cons_append, List.append_assoc]

theorem charsItems_cons_append (s : Sexp) (ss : List Sexp) (rest : List Char) :
    charsItems (s :: ss) ++ rest = ' ' :: (s.chars ++ (charsItems ss ++ rest)) := by
  rw [charsItems, List.cons_append, List.append_assoc]

mutual

theorem Sexp.unique : ∀ {s s' : Sexp} {rest rest' : List Char}, s.OfWords → s'.OfWords → AtEnd rest → AtEnd rest' →
    s.chars ++ rest = s'.chars ++ rest' → s = s' ∧ rest = rest'
  | .word text, .word text', _, _, h, h', hr, hr', heq => by
    obtain ⟨rfl, hrest⟩ := Undivided.unique h h' hr hr' heq
    exact ⟨rfl, hrest⟩
  | .word _, .node _ _, _, _, h, _, _, _, heq => absurd heq (Undivided.ne_node h _ _)
  | .node _ _, .word _, _, _, _, h', _, _, heq => absurd heq.symm (Undivided.ne_node h' _ _)
  | .node head items, .node head' items', rest, rest', h, h', hr, hr', heq => by
    rw [chars_node_append, chars_node_append] at heq
    obtain ⟨rfl, hitems⟩ := h.1.unique h'.1 (atEnd_charsItems _ _) (atEnd_charsItems _ _) (List.cons.inj heq).2
    obtain ⟨rfl, hrest⟩ := unique_items h.2 h'.2 hr hr' hitems
    exact ⟨rfl, hrest⟩

theorem unique_items : ∀ {ss ss' : List Sexp} {rest rest' : List Char}, AllOfWords ss → AllOfWords ss' → AtEnd rest →
    AtEnd rest' → charsItems ss ++ rest = charsItems ss' ++ rest' → ss = ss' ∧ rest = rest'
  | [], [], _, _, _, _, _, _, heq => ⟨rfl, (List.cons.inj heq).2⟩
  | [], _ :: _, _, _, _, _, _, _, heq => absurd (List.cons.inj heq).1 (by decide)
  | _ :: _, [], _, _, _, _, _, _, heq => absurd (List.cons.inj heq).1 (by decide)
  | s :: ss, s' :: ss', rest, rest', h, h', hr, hr', heq => by
    rw [charsItems_cons_append, charsItems_cons_append] at heq
    obtain ⟨rfl, hmore⟩ := s.unique h.1 h'.1 (atEnd_charsItems _ _) (atEnd_charsItems _ _) (List.cons.inj heq).2
    obtain ⟨rfl, hrest⟩ := unique_items h.2 h'.2 hr hr' hmore
    exact ⟨rfl, hrest⟩

end

/-- The text tells the tree. -/
theorem Sexp.eq_of_chars_eq {s s' : Sexp} (h : s.OfWords) (h' : s'.OfWords) (heq : s.chars = s'.chars) : s = s' := by
  have hnil : AtEnd [] := by rintro _ ⟨⟩
  have happend : s.chars ++ [] = s'.chars ++ [] := by rw [heq]
  exact (s.unique h h' hnil hnil happend).1

/-! ## Expressions -/

mutual

/-- The tree of the prefix form. What is shown of a lambda is one word. -/
def Expr.sexp : Expr → Sexp
  | .literal value => .word (value.text .literal)
  | .unary op _ operand => .node op.spelling [operand.sexp]
  | .binary op _ left right => .node op.spelling [left.sexp, right.sexp]
  | .logical op _ left right => .node op.symbol [left.sexp, right.sexp]
  | .group inner => .node "group" [inner.sexp]
  | .var _ name => .word name.text
  | .assign _ name value => .node "=" [.word name.text, value.sexp]
  | .call callee _ arguments => .node "call" (callee.sexp :: sexpExprs arguments)
  | .lambda line routine => .word (Expr.lambda line routine).polish
  | .get object name => .node "." [object.sexp, .word name.text]
  | .set object name value => .node "=" [.node "." [object.sexp, .word name.text], value.sexp]
  | .this _ _ => .word "this"
  | .super _ _ method => .node "super" [.word method.text]

def sexpExprs : List Expr → List Sexp
  | [] => []
  | e :: es => e.sexp :: sexpExprs es

end

mutual

theorem Expr.toList_polish : ∀ e : Expr, e.polish.toList = e.sexp.chars
  | .literal _ | .var _ _ | .lambda _ _ => rfl
  | .this _ _ => rfl
  | .unary op _ operand => by
    simp [Expr.polish, Expr.sexp, Sexp.chars, charsItems, operand.toList_polish]
  | .binary op _ left right => by
    simp [Expr.polish, Expr.sexp, Sexp.chars, charsItems, left.toList_polish, right.toList_polish]
  | .logical op _ left right => by
    simp [Expr.polish, Expr.sexp, Sexp.chars, charsItems, left.toList_polish, right.toList_polish]
  | .group inner => by simp [Expr.polish, Expr.sexp, Sexp.chars, charsItems, inner.toList_polish]
  | .assign _ name value => by simp [Expr.polish, Expr.sexp, Sexp.chars, charsItems, value.toList_polish]
  | .call callee _ arguments => by
    simp [Expr.polish, Expr.sexp, Sexp.chars, charsItems, callee.toList_polish, toList_polishArguments arguments]
  | .get object name => by simp [Expr.polish, Expr.sexp, Sexp.chars, charsItems, object.toList_polish]
  | .set object name value => by
    simp [Expr.polish, Expr.sexp, Sexp.chars, charsItems, object.toList_polish, value.toList_polish]
  | .super _ _ method => by simp [Expr.polish, Expr.sexp, Sexp.chars, charsItems]

theorem toList_polishArguments : ∀ es : List Expr, (polishArguments es).toList ++ [')'] = charsItems (sexpExprs es)
  | [] => rfl
  | e :: es => by
    simp [polishArguments, sexpExprs, charsItems, e.toList_polish, toList_polishArguments es]

end

/-! ## Lines and identities are not shown -/

mutual

theorem Expr.polish_recoded (ρ : Recoding) : ∀ e : Expr, (e.recoded ρ).polish = e.polish
  | .literal _ | .var _ _ | .this _ _ | .super _ _ _ => rfl
  | .unary _ _ operand => by simp only [Expr.recoded, Expr.polish, operand.polish_recoded]
  | .binary _ _ left right => by simp only [Expr.recoded, Expr.polish, left.polish_recoded, right.polish_recoded]
  | .logical _ _ left right => by simp only [Expr.recoded, Expr.polish, left.polish_recoded, right.polish_recoded]
  | .group inner => by simp only [Expr.recoded, Expr.polish, inner.polish_recoded]
  | .assign _ name value => by simp only [Expr.recoded, Expr.polish, value.polish_recoded]; rfl
  | .call callee _ arguments => by
    simp only [Expr.recoded, Expr.polish, callee.polish_recoded, polishArguments_recoded ρ arguments]
  | .lambda _ ⟨params, _⟩ => by
    simp only [Expr.recoded, Routine.recoded, Expr.polish, List.map_map]
    rfl
  | .get object name => by simp only [Expr.recoded, Expr.polish, object.polish_recoded]; rfl
  | .set object name value => by
    simp only [Expr.recoded, Expr.polish, object.polish_recoded, value.polish_recoded]
    rfl

theorem polishArguments_recoded (ρ : Recoding) : ∀ es : List Expr, polishArguments (recodedExprs ρ es) = polishArguments es
  | [] => rfl
  | e :: es => by simp only [recodedExprs, polishArguments, e.polish_recoded, polishArguments_recoded ρ es]

end

end Lox
