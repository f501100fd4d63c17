import Mathlib.Data.List.Basic

namespace SyntaxMarkup

namespace Brackets

/-- The bracket that ends what a bracket starts. -/
def partner? : Char → Option Char
  | '(' => some ')'
  | '[' => some ']'
  | '\x7b' => some '\x7d'
  | _ => none

def isEnd (c : Char) : Bool :=
  c == ')' || c == ']' || c == '\x7d'

def isBracket (c : Char) : Bool :=
  (partner? c).isSome || isEnd c

/-- The brackets that are open after a character, the innermost first, if those `around` are open
before it. A bracket that ends something has to end what the innermost one starts. -/
def next? (around : List Char) (c : Char) : Option (List Char) :=
  if (partner? c).isSome then some (c :: around)
  else if isEnd c then
    match around with
    | [] => none
    | start :: others => if partner? start = some c then some others else none
  else some around

def after? (around text : List Char) : Option (List Char) :=
  text.foldlM next? around

/-- The characters of a text that no brackets are open around, brackets aside. -/
def outside (around : List Char) : List Char → List Char
  | [] => []
  | c :: rest =>
    (if around.isEmpty && !isBracket c then [c] else []) ++
      outside ((next? around c).getD []) rest

variable {around later outer text rest : List Char}

@[simp] theorem after?_nil (around : List Char) : after? around [] = some around := rfl

theorem after?_cons (around : List Char) (c : Char) (text : List Char) :
    after? around (c :: text) = (next? around c).bind (after? · text) := rfl

theorem after?_append (around text rest : List Char) :
    after? around (text ++ rest) = (after? around text).bind (after? · rest) :=
  List.foldlM_append

theorem after?_append_of_eq (h : after? around text = some later) (rest : List Char) :
    after? around (text ++ rest) = after? later rest := by
  rw [after?_append, h, Option.bind_some]

/-- What is open outside makes no difference. -/
theorem next?_frame {c : Char} (h : next? around c = some later) (outer : List Char) :
    next? (around ++ outer) c = some (later ++ outer) := by
  unfold next? at h ⊢
  split at h
  next starts =>
    cases h
    rw [if_pos starts, List.cons_append]
  next starts =>
    rw [if_neg starts]
    split at h
    next ends =>
      rw [if_pos ends]
      cases around with
      | nil => cases h
      | cons start others =>
        dsimp only at h
        rw [List.cons_append]
        split at h
        next same =>
          cases h
          exact if_pos same
        next => cases h
    next ends =>
      cases h
      rw [if_neg ends]

theorem after?_frame (h : after? around text = some later) (outer : List Char) :
    after? (around ++ outer) text = some (later ++ outer) := by
  induction text generalizing around with
  | nil =>
    cases h
    rfl
  | cons c text ih =>
    obtain ⟨middle, here, rest⟩ := Option.bind_eq_some_iff.mp h
    rw [after?_cons, next?_frame here, Option.bind_some, ih rest]

/-- Text that ends each bracket that it starts, and no other one. -/
def Balanced (text : List Char) : Prop :=
  after? [] text = some []

instance (text : List Char) : Decidable (Balanced text) :=
  inferInstanceAs (Decidable (_ = _))

theorem balanced_nil : Balanced [] := rfl

theorem Balanced.after? (hb : Balanced text) (around : List Char) :
    after? around text = some around :=
  after?_frame hb around

theorem Balanced.append (first : Balanced text) (second : Balanced rest) :
    Balanced (text ++ rest) := by
  rw [Balanced, after?_append_of_eq first, second]

/-- An end for which there is no start is not made good by what comes after it. -/
theorem Balanced.not_balanced_append (hb : Balanced text) (rest : List Char) :
    ¬ Balanced (text ++ ')' :: rest) := by
  have ends : next? [] ')' = none := rfl
  simp [Balanced, after?_append_of_eq hb, after?_cons, ends]

theorem next?_of_not_isBracket {c : Char} (h : isBracket c = false) (around : List Char) :
    next? around c = some around := by
  obtain ⟨starts, ends⟩ := Bool.or_eq_false_iff.mp h
  unfold next?
  rw [if_neg (by simp [starts]), if_neg (by simp [ends])]

/-- Whether a text has neither brackets nor semicolons. -/
def isNeutral (text : List Char) : Bool :=
  text.all fun c => !isBracket c && c != ';'

theorem isNeutral_iff : isNeutral text = true ↔ ∀ c ∈ text, isBracket c = false ∧ c ≠ ';' := by
  simp [isNeutral]

theorem balanced_of_isNeutral (hneutral : isNeutral text = true) : Balanced text := by
  induction text with
  | nil => exact balanced_nil
  | cons c text ih =>
    obtain ⟨here, others⟩ := List.forall_mem_cons.mp (isNeutral_iff.mp hneutral)
    rw [Balanced, after?_cons, next?_of_not_isBracket here.1, Option.bind_some]
    exact ih (isNeutral_iff.mpr others)

theorem not_mem_of_isNeutral (hneutral : isNeutral text = true) : ';' ∉ text :=
  fun hm => (isNeutral_iff.mp hneutral _ hm).2 rfl

theorem mem_of_mem_outside {c : Char} (h : c ∈ outside around text) : c ∈ text := by
  induction text generalizing around with
  | nil => cases h
  | cons first text ih =>
    rw [outside] at h
    rcases List.mem_append.mp h with here | later
    · split at here
      · exact List.mem_cons.mpr (.inl (List.mem_singleton.mp here))
      · cases here
    · exact List.mem_cons_of_mem _ (ih later)

theorem outside_append (h : after? around text = some later) (rest : List Char) :
    outside around (text ++ rest) = outside around text ++ outside later rest := by
  induction text generalizing around with
  | nil =>
    cases h
    rfl
  | cons c text ih =>
    obtain ⟨middle, here, after⟩ := Option.bind_eq_some_iff.mp h
    rw [List.cons_append, outside, outside, here, Option.getD_some, ih after, List.append_assoc]

/-- Inside of a bracket nothing is outside, as long as the bracket is not ended. -/
theorem outside_eq_nil (h : after? around text = some later) (inside : outer ≠ []) :
    outside (around ++ outer) text = [] := by
  induction text generalizing around with
  | nil => rfl
  | cons c text ih =>
    obtain ⟨middle, here, after⟩ := Option.bind_eq_some_iff.mp h
    have open_ : (around ++ outer).isEmpty = false := by simp [inside]
    rw [outside, next?_frame here, open_, Option.getD_some, ih after]
    rfl

theorem Balanced.outside_append (hb : Balanced text) (rest : List Char) :
    outside [] (text ++ rest) = outside [] text ++ outside [] rest :=
  Brackets.outside_append hb rest

theorem Balanced.outside_eq_nil (hb : Balanced text) (inside : around ≠ []) :
    outside around text = [] :=
  Brackets.outside_eq_nil hb inside

end Brackets

end SyntaxMarkup
