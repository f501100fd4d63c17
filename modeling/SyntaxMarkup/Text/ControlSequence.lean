namespace SyntaxMarkup.Text

def isLayout (c : Char) : Bool :=
  c == '\t' || c == '\n' || c == '\u000c' || c == '\r'

def isKept (c : Char) : Bool :=
  isLayout c || (' ' ≤ c && c != '\u007f')

inductive ControlSequence where
  | escape
  | intermediate
  | control
  | device
  | deviceParameter
  | deviceIntermediate
  | string
  | command
  deriving DecidableEq, Repr

namespace ControlSequence

/-- White space inside a string or before its content is part of it. -/
def keepsLayout : ControlSequence → Bool
  | escape | intermediate | control => true
  | _ => false

/-- The byte that ends a string, wherever it stands in the encoding of a character. -/
def stringTerminator : UInt8 := 0x9c

/-- The sequence after another character, or none if it ends with that. -/
def next? (c : Char) : ControlSequence → Option ControlSequence
  | escape =>
    if c < ' ' ∨ '~' < c then some escape
    else if c ≤ '/' then some intermediate
    else
      match c with
      | '[' => some control
      | ']' => some command
      | 'P' => some device
      | 'X' | '^' | '_' => some string
      | _ => none
  | intermediate => if '0' ≤ c ∧ c ≤ '~' then none else some intermediate
  | control => if '@' ≤ c ∧ c ≤ '~' then none else some control
  | device =>
    if c < ' ' ∨ '~' < c then some device
    else if c ≤ '/' then some deviceIntermediate
    else if c ≤ '?' then some deviceParameter
    else some string
  | deviceParameter =>
    if c < ' ' ∨ '~' < c then some deviceParameter
    else if c ≤ '/' then some deviceIntermediate
    else if c ≤ ';' then some deviceParameter
    else some string
  | deviceIntermediate =>
    if '0' ≤ c ∧ c ≤ '~' then some string else some deviceIntermediate
  | string => if stringTerminator ∈ String.utf8EncodeChar c then none else some string
  | command => if c = '\u0007' then none else some command

end ControlSequence

/-- Where a text stands between its characters. -/
inductive Passage where
  | outside
  | inside (sequence : ControlSequence)
  /-- White space inside the sequence has been kept, and what follows is kept with it up to the
  next control character. -/
  | suspended (sequence : ControlSequence)
  deriving DecidableEq, Repr

namespace Passage

def keeps (c : Char) : Passage → Bool
  | outside | suspended _ => isKept c
  | inside sequence => sequence.keepsLayout && isLayout c

def afterKept (c : Char) : Passage → Passage
  | outside => outside
  | inside sequence | suspended sequence => if c ≤ '~' then suspended sequence else outside

def afterDropped (c : Char) : Passage → Passage
  | outside => outside
  | inside sequence | suspended sequence => (sequence.next? c).elim outside inside

/-- The passage after a character. Escape begins a sequence in any case, and cancel and substitute
end one. -/
def next (c : Char) (passage : Passage) : Passage :=
  if c = '\u001b' then inside .escape
  else if c = '\u0018' ∨ c = '\u001a' then outside
  else if passage.keeps c then passage.afterKept c
  else passage.afterDropped c

end Passage

def keptFrom : Passage → List Char → List Char
  | _, [] => []
  | passage, c :: rest =>
    if passage.keeps c then c :: keptFrom (passage.next c) rest else keptFrom (passage.next c) rest

/-- Text as it reads without a terminal: control characters are left out, and so are the sequences
that begin with the escape character. -/
def withoutControls (text : String) : String :=
  String.ofList (keptFrom .outside text.toList)

theorem isKept_of_keeps {c : Char} {passage : Passage} (h : passage.keeps c) : isKept c := by
  cases passage with
  | outside | suspended _ => exact h
  | inside sequence =>
    obtain ⟨_, layout⟩ := Bool.and_eq_true_iff.mp h
    simp [isKept, layout]

/-- Nothing else is left. -/
theorem isKept_of_mem_keptFrom {passage : Passage} {text : List Char} {c : Char}
    (h : c ∈ keptFrom passage text) : isKept c := by
  induction text generalizing passage with
  | nil => exact nomatch h
  | cons first rest ih =>
    unfold keptFrom at h
    split at h
    next hk =>
      rcases List.mem_cons.mp h with rfl | h
      · exact isKept_of_keeps hk
      · exact ih h
    next => exact ih h

theorem next_outside {c : Char} (h : isKept c) : Passage.outside.next c = .outside := by
  unfold Passage.next
  split
  next escape =>
    subst escape
    exact absurd h (by decide)
  next =>
    split
    · rfl
    · split <;> rfl

/-- A text without control characters is kept as it is. -/
theorem keptFrom_outside {text : List Char} (h : ∀ c ∈ text, isKept c) :
    keptFrom .outside text = text := by
  induction text with
  | nil => rfl
  | cons c rest ih =>
    obtain ⟨first, others⟩ := List.forall_mem_cons.mp h
    have hk : Passage.outside.keeps c := first
    rw [keptFrom, if_pos hk, next_outside first, ih others]

end SyntaxMarkup.Text
