import Mathlib.Logic.Function.Defs
import Lox.Diagnostic

/-!
# Wordings tell findings apart

No two errors of an evaluation have the same message, and no two warnings the same text. A message begins with words that
tell its kind, since the beginning of no kind is one of another, and the names and numbers after it can be read off.
-/

namespace Lox

/-! ## Numbers in a text -/

/-- What comes before the first character that is no digit is the same. -/
theorem digits_append_cancel {ds ds' t t' : List Char} {c : Char} (hd : ∀ d ∈ ds, d.isDigit = true)
    (hd' : ∀ d ∈ ds', d.isDigit = true) (hc : c.isDigit = false) (h : ds ++ c :: t = ds' ++ c :: t') : ds = ds' ∧ t = t' := by
  have htake : ds = ds' := by
    have := congrArg (List.takeWhile Char.isDigit) h
    rwa [List.takeWhile_append_of_pos hd, List.takeWhile_append_of_pos hd', List.takeWhile_cons_of_neg (by simp [hc]),
      List.takeWhile_cons_of_neg (by simp [hc]), List.append_nil, List.append_nil] at this
  subst htake
  exact ⟨rfl, (List.cons.inj (List.append_cancel_left h)).2⟩

theorem isDigit_of_mem_repr {n : Nat} {d : Char} (h : d ∈ n.repr.toList) : d.isDigit = true := by
  rw [Nat.repr_eq_ofList_toDigits, String.toList_ofList] at h
  exact Nat.isDigit_of_mem_toDigits (by decide) (by decide) h

theorem repr_injective {n n' : Nat} (h : n.repr.toList = n'.repr.toList) : n = n' := by
  rw [Nat.repr_eq_ofList_toDigits, Nat.repr_eq_ofList_toDigits, String.toList_ofList, String.toList_ofList] at h
  have hnat := congrArg (Nat.ofDigitChars 10 · 0) h
  simpa only [Nat.ofDigitChars_ten_toDigits] using hnat

/-- A number ends before a text that does not begin with a digit. -/
theorem repr_append_cancel {n n' : Nat} {start rest rest' : String} (hstart : start.toList.head?.any (!Char.isDigit ·))
    (h : n.repr ++ (start ++ rest) = n'.repr ++ (start ++ rest')) : n = n' ∧ rest = rest' := by
  obtain ⟨c, cs, hcs, hc⟩ : ∃ c cs, start.toList = c :: cs ∧ c.isDigit = false := by
    cases hs : start.toList with
    | nil => simp [hs] at hstart
    | cons c cs => exact ⟨c, cs, rfl, by simpa [hs] using hstart⟩
  have hl := congrArg String.toList h
  simp only [String.toList_append, hcs, List.cons_append] at hl
  obtain ⟨hn, hrest⟩ := digits_append_cancel (fun _ => isDigit_of_mem_repr) (fun _ => isDigit_of_mem_repr) hc hl
  exact ⟨repr_injective hn, String.toList_injective (List.append_cancel_left hrest)⟩

theorem Warning.text_injective : Function.Injective Warning.text := by
  rintro ⟨line, name⟩ ⟨line', name'⟩ h
  have h : "[line " ++ line.repr ++ "] Warning: Local variable '" ++ name ++ "' is never used." =
    "[line " ++ line'.repr ++ "] Warning: Local variable '" ++ name' ++ "' is never used." := h
  have h := (String.append_left_inj _).mp h
  simp only [String.append_assoc, String.append_right_inj] at h
  obtain ⟨rfl, rfl⟩ := repr_append_cancel rfl h
  rfl

/-! ## Errors of an evaluation -/

namespace RuntimeFault

/-- The error without the names and numbers that it is about. -/
def kind : RuntimeFault → RuntimeFault
  | naming (.undefined _) => naming (.undefined "")
  | naming (.alreadyDefined _) => naming (.alreadyDefined "")
  | undefinedProperty _ => undefinedProperty ""
  | wrongArity .. => wrongArity 0 0
  | fault => fault

/-- How the message begins, up to the first name or number. -/
def opening : RuntimeFault → String
  | naming (.undefined _) => "Undefined variable '"
  | naming (.alreadyDefined _) => "Variable '"
  | undefinedProperty _ => "Undefined property '"
  | wrongArity .. => "Expected "
  | fault => fault.message

/-- One error of each kind. -/
def kinds : List RuntimeFault :=
  [naming (.undefined ""), naming (.alreadyDefined ""), undefinedProperty "", operandNotNumber, operandsNotNumbers,
    operandsNotAddable, invalidUnaryOperator, invalidBinaryOperator, divisionByZero, superclassNotClass,
    fieldOfNonInstance, propertyOfNonInstance, notCallable, wrongArity 0 0, stackOverflow, unresolvedSuper,
    unresolvedThis, inputNotText, outputNotWritten .sinkFull, outputNotWritten .flushFailed]

variable {fault fault' : RuntimeFault}

theorem kind_mem_kinds (fault : RuntimeFault) : fault.kind ∈ kinds := by
  cases fault with
  | naming fault => cases fault <;> simp [kind, kinds]
  | outputNotWritten fault => cases fault <;> simp [kind, kinds]
  | _ => simp [kind, kinds]

theorem opening_kind (fault : RuntimeFault) : fault.kind.opening = fault.opening := by
  cases fault with
  | naming fault => cases fault <;> rfl
  | _ => rfl

theorem message_eq_opening_append (fault : RuntimeFault) : ∃ rest, fault.message = fault.opening ++ rest := by
  cases fault with
  | naming fault =>
    cases fault with
    | undefined name => exact ⟨name ++ "'.", String.append_assoc⟩
    | alreadyDefined name => exact ⟨name ++ "' is already defined in this scope.", String.append_assoc⟩
  | undefinedProperty name => exact ⟨name ++ "'.", String.append_assoc⟩
  | wrongArity n k =>
    refine ⟨n.repr ++ (" arguments but got " ++ (k.repr ++ ".")), ?_⟩
    change "Expected " ++ n.repr ++ " arguments but got " ++ k.repr ++ "." = "Expected " ++ _
    simp only [String.append_assoc]
  | _ => exact ⟨"", String.append_empty.symm⟩

theorem opening_prefix_message (fault : RuntimeFault) : fault.opening.toList <+: fault.message.toList := by
  obtain ⟨rest, h⟩ := message_eq_opening_append fault
  rw [h, String.toList_append]
  exact List.prefix_append _ _

/-- No kind of error begins its message as another one does. -/
theorem kind_eq_of_openings : ∀ k ∈ kinds, ∀ k' ∈ kinds, k.opening.toList <+: k'.opening.toList → k = k' := by
  decide +kernel

theorem kind_eq_of_message (h : fault.message = fault'.message) : fault.kind = fault'.kind := by
  have hk := kind_mem_kinds fault
  have hk' := kind_mem_kinds fault'
  have hprefix := opening_prefix_message fault
  rw [h, ← opening_kind] at hprefix
  rcases List.prefix_or_prefix_of_prefix hprefix (opening_kind fault' ▸ opening_prefix_message fault') with hp | hp
  · exact kind_eq_of_openings _ hk _ hk' hp
  · exact (kind_eq_of_openings _ hk' _ hk hp).symm

/-- The message of an error tells the error. -/
theorem message_injective : Function.Injective message := by
  intro fault fault' h
  have hkind := kind_eq_of_message h
  -- errors of one kind are the same, or differ in the names and numbers in their messages
  rcases fault with (name | name) | _ <;> rcases fault' with (name' | name') | _ <;> cases hkind <;> try rfl
  case naming.undefined.naming.undefined =>
    have h : "Undefined variable '" ++ name ++ "'." = "Undefined variable '" ++ name' ++ "'." := h
    rw [(String.append_right_inj _).mp ((String.append_left_inj _).mp h)]
  case naming.alreadyDefined.naming.alreadyDefined =>
    have h : "Variable '" ++ name ++ "' is already defined in this scope." =
      "Variable '" ++ name' ++ "' is already defined in this scope." := h
    rw [(String.append_right_inj _).mp ((String.append_left_inj _).mp h)]
  case undefinedProperty.undefinedProperty name name' =>
    have h : "Undefined property '" ++ name ++ "'." = "Undefined property '" ++ name' ++ "'." := h
    rw [(String.append_right_inj _).mp ((String.append_left_inj _).mp h)]
  case wrongArity.wrongArity n k n' k' =>
    have h : "Expected " ++ n.repr ++ " arguments but got " ++ k.repr ++ "." =
      "Expected " ++ n'.repr ++ " arguments but got " ++ k'.repr ++ "." := h
    have h := (String.append_left_inj _).mp h
    simp only [String.append_assoc, String.append_right_inj] at h
    obtain ⟨rfl, hk⟩ := repr_append_cancel rfl h
    rw [repr_injective (congrArg String.toList hk)]

end RuntimeFault

end Lox
