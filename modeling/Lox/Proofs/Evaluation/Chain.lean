import Lox.Store

/-!
# Chains of links

What looks something up goes along links: from a frame to the one around it, from a class to its superclass. Where the links
form a chain, it comes to an end, and to no other end.
-/

namespace Lox

section
variable {α β : Type} (link : α → α → Prop)

/-- The links lead from the first element through all of the list to the second element, and not further. -/
inductive Chain : α → α → List α → Prop where
  | last {a} : (∀ b, ¬ link a b) → Chain a a [a]
  | link {a b r l} : link a b → Chain b r l → Chain a r (a :: l)

/-- From link to link, up to the first element where something is found, or else to the last. -/
inductive Search (look : α → Option β) : α → Option β → Prop where
  | found {a v} : look a = some v → Search look a (some v)
  | outward {a b o} : look a = none → link a b → Search look b o → Search look a o
  | nowhere {a} : look a = none → (∀ b, ¬ link a b) → Search look a none

/-- The element that many links on, if there are as many. -/
inductive Walk : Nat → α → Option α → Prop where
  | here {a} : Walk 0 a (some a)
  | outward {n a b o} : link a b → Walk n b o → Walk (n + 1) a o
  | nowhere {n a} : (∀ b, ¬ link a b) → Walk (n + 1) a none

/-- The search comes to that end, and to no other. -/
def Search.Ends (look : α → Option β) (a : α) (o : Option β) : Prop := ∀ o', Search link look a o' ↔ o' = o

end

section
variable {α β : Type} {link : α → α → Prop} {look : α → Option β} {a r : α} {l : List α}

theorem Chain.head (h : Chain link a r l) : l.head? = some a := by cases h <;> rfl

theorem Chain.search (h : Chain link a r l) (look : α → Option β) : Search link look a (l.findSome? look) := by
  induction h with
  | @last a hlast =>
    cases ha : look a with
    | none => simpa [ha] using Search.nowhere ha hlast
    | some v => simpa [ha] using Search.found ha
  | @link a b r l hab _ ih =>
    cases ha : look a with
    | none => simpa [ha] using Search.outward ha hab ih
    | some v => simpa [ha] using Search.found ha

theorem Chain.walk (h : Chain link a r l) (n : Nat) : Walk link n a l[n]? := by
  induction h generalizing n with
  | last hlast =>
    cases n with
    | zero => exact .here
    | succ n => exact .nowhere hlast
  | link hab _ ih =>
    cases n with
    | zero => exact .here
    | succ n => exact .outward hab (ih n)

/-! ## Single links -/

variable (hone : ∀ a b b', link a b → link a b' → b = b')
include hone

theorem Chain.unique {r' : α} {l' : List α} (h : Chain link a r l) (h' : Chain link a r' l') : l' = l := by
  induction h generalizing l' with
  | last hlast =>
    cases h' with
    | last => rfl
    | link hab => exact absurd hab (hlast _)
  | link hab _ ih =>
    cases h' with
    | last hlast => exact absurd hab (hlast _)
    | link hab' h' =>
      obtain rfl := hone _ _ _ hab hab'
      rw [ih h']

theorem Search.unique {o o' : Option β} (h : Search link look a o) (h' : Search link look a o') : o' = o := by
  induction h with
  | found ha =>
    cases h' with
    | found ha' => exact ha'.symm.trans ha
    | outward ha' => cases ha.symm.trans ha'
    | nowhere ha' => cases ha.symm.trans ha'
  | outward ha hab _ ih =>
    cases h' with
    | found ha' => cases ha.symm.trans ha'
    | outward _ hab' h' =>
      obtain rfl := hone _ _ _ hab hab'
      exact ih h'
    | nowhere _ hlast => exact absurd hab (hlast _)
  | nowhere ha hlast =>
    cases h' with
    | found ha' => cases ha.symm.trans ha'
    | outward _ hab => exact absurd hab (hlast _)
    | nowhere => rfl

theorem Walk.unique {n : Nat} {o o' : Option α} (h : Walk link n a o) (h' : Walk link n a o') : o' = o := by
  induction h with
  | here => cases h'; rfl
  | outward hab _ ih =>
    cases h' with
    | outward hab' h' =>
      obtain rfl := hone _ _ _ hab hab'
      exact ih h'
    | nowhere hlast => exact absurd hab (hlast _)
  | nowhere hlast =>
    cases h' with
    | outward hab => exact absurd hab (hlast _)
    | nowhere => rfl

/-- Along a chain a search comes to an end, which is what the list says. -/
theorem Chain.search_ends (h : Chain link a r l) (look : α → Option β) : Search.Ends link look a (l.findSome? look) :=
  fun _ => ⟨fun ho => Search.unique hone (h.search look) ho, fun ho => ho ▸ h.search look⟩

theorem Chain.walk_iff (h : Chain link a r l) {n : Nat} {o : Option α} : Walk link n a o ↔ o = l[n]? :=
  ⟨fun ho => Walk.unique hone (h.walk n) ho, fun ho => ho ▸ h.walk n⟩

end

/-! ## Variables -/

/-- Looking up variables goes along the links that begin at the frame, and comes to an end. -/
structure Env.LooksUp (links : FrameId → FrameId → Prop) (f : FrameId) (env : Env) : Prop where
  read : ∀ (s : Store) name, ∃ o, Search.Ends links (s.var? · name) f o ∧
    s.read env name = o.elim (.error (.undefined name)) .ok
  write : ∀ (s : Store) name v, ∃ o, Search.Ends links (Option.guard fun g => (s.var? g name).isSome) f o ∧
    s.write env name v = o.elim (.error (.undefined name)) fun g => .ok (s.setVar g name v)
  ancestor : ∀ n o, Walk links n f o ↔ o = Store.ancestor? env n

theorem Chain.looksUp {links : FrameId → FrameId → Prop} (hone : ∀ f g g', links f g → links f g' → g = g') {f root : FrameId}
    {env : Env} (h : Chain links f root env) : Env.LooksUp links f env where
  read s name := by
    refine ⟨_, h.search_ends hone _, ?_⟩
    unfold Store.read
    cases env.findSome? (s.var? · name) <;> rfl
  write s name v := by
    refine ⟨_, h.search_ends hone _, ?_⟩
    unfold Store.write Store.slot?
    rw [List.findSome?_guard]
    cases env.find? _ <;> rfl
  ancestor n o := h.walk_iff hone

/-! ## Methods -/

namespace Class

/-- The class that this one inherits from. -/
def superclass? (c : Class) : Option Class :=
  match c.ancestors with
  | [] => none
  | layer :: rest => some ⟨layer, rest⟩

/-- The first class inherits from the second one. -/
def Links (c k : Class) : Prop := c.superclass? = some k

theorem Links.one (c k k' : Class) (h : c.Links k) (h' : c.Links k') : k = k' := Option.some.inj (h.symm.trans h')

/-- The superclasses of a class are the classes of its lineage. -/
theorem chain : ∀ (layer : ClassLayer) (ancestors : List ClassLayer),
    ∃ root l, Chain Links ⟨layer, ancestors⟩ root l ∧ l.map Class.layer = layer :: ancestors
  | layer, [] => ⟨_, _, .last fun _ => nofun, rfl⟩
  | layer, next :: rest => by
    obtain ⟨root, l, hl, hlayers⟩ := chain next rest
    exact ⟨root, _, .link rfl hl, by simp [hlayers]⟩

end Class

/-- Looking up methods goes along the superclasses and comes to an end, at the nearest class that declares one. -/
structure Class.LooksUp (c : Class) (look : ClassLayer → Dict FunctionObject) (find : String → Option FunctionObject) : Prop where
  ends : ∀ name, Search.Ends Class.Links (fun k => (look k.layer).get? name) c (find name)
  nearest : ∃ root l, Chain Class.Links c root l ∧ ∀ name f, find name = some f ↔
    ∃ before k after, l = before ++ k :: after ∧ (look k.layer).get? name = some f ∧ ∀ j ∈ before, (look j.layer).get? name = none

theorem Class.looksUp (c : Class) (look : ClassLayer → Dict FunctionObject) :
    c.LooksUp look fun name => c.lineage.findSome? fun layer => (look layer).get? name := by
  obtain ⟨root, l, hl, hlayers⟩ := Class.chain c.layer c.ancestors
  have hfind : ∀ name, c.lineage.findSome? (fun layer => (look layer).get? name) = l.findSome? fun k => (look k.layer).get? name := by
    intro name
    rw [Class.lineage, ← hlayers, List.findSome?_map]
    rfl
  refine ⟨fun name => ?_, root, l, hl, fun name f => ?_⟩
  · rw [hfind]
    exact hl.search_ends Links.one _
  · rw [hfind, List.findSome?_eq_some_iff]

end Lox
