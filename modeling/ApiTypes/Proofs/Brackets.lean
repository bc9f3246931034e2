import ApiTypes.Delimiter

/-!
# Bracket words

A closing bracket closes the innermost open one if that is its partner, and else closes nothing. What
a word leaves open stands between words of the grammar of balanced brackets, and a word is one of
them if and only if it leaves nothing open and each of its closing brackets closes one.
-/

namespace ApiTypes.Delimiter

structure Bracket where
  char : Char
  place : Nat
  deriving Repr, DecidableEq

def isBracket (c : Char) : Bool := isOpening c || (partner? c).isSome

def chars (w : List Bracket) : List Char := w.map (·.char)

/-! ## Open brackets -/

/-- The brackets that are open behind `b` when `os` are open before it, innermost first. -/
def openAfter (os : List Bracket) (b : Bracket) : List Bracket :=
  if isOpening b.char then b :: os
  else match os with
    | [] => []
    | top :: below => if partner? b.char = some top.char then below else top :: below

def isUnexpected (os : List Bracket) (b : Bracket) : Bool :=
  (partner? b.char).isSome && partner? b.char != os.head?.map (·.char)

def unexpectedFrom (os : List Bracket) : List Bracket → List Bracket
  | [] => []
  | b :: w =>
    if isUnexpected os b then b :: unexpectedFrom (openAfter os b) w
    else unexpectedFrom (openAfter os b) w

def expectedFrom (os : List Bracket) : List Bracket → List Bracket
  | [] => []
  | b :: w =>
    if isUnexpected os b then expectedFrom (openAfter os b) w
    else b :: expectedFrom (openAfter os b) w

def opened (w : List Bracket) : List Bracket := w.foldl openAfter []

def unexpected (w : List Bracket) : List Bracket := unexpectedFrom [] w

def expected (w : List Bracket) : List Bracket := expectedFrom [] w

/-! ### Steps -/

section
variable {c o : Char} (h : partner? c = some o)
include h

theorem partner?_cases : (o = '(' ∧ c = ')') ∨ (o = '[' ∧ c = ']') ∨ (o = '{' ∧ c = '}') := by
  unfold partner? at h
  grind

theorem isOpening_closing : isOpening c = false := by
  rcases partner?_cases h with ⟨_, rfl⟩ | ⟨_, rfl⟩ | ⟨_, rfl⟩ <;> rfl

end

section
variable {os below : List Bracket} {b top : Bracket}

theorem partner?_opening (h : isOpening b.char = true) : partner? b.char = none := by
  cases ho : partner? b.char with
  | none => rfl
  | some o =>
    rw [isOpening_closing ho] at h
    cases h

theorem openAfter_opening (h : isOpening b.char = true) : openAfter os b = b :: os := by
  unfold openAfter
  rw [if_pos h]

theorem isUnexpected_opening (h : isOpening b.char = true) : isUnexpected os b = false := by
  rw [isUnexpected, partner?_opening h]
  rfl

theorem openAfter_closing (h : partner? b.char = some top.char) :
    openAfter (top :: below) b = below := by
  simp [openAfter, isOpening_closing h, h]

theorem isUnexpected_closing (h : partner? b.char = some top.char) :
    isUnexpected (top :: below) b = false := by
  simp [isUnexpected, h]

theorem openAfter_unexpected (h : isUnexpected os b = true) : openAfter os b = os := by
  simp only [isUnexpected, Bool.and_eq_true, bne_iff_ne] at h
  obtain ⟨o, ho⟩ := Option.isSome_iff_exists.mp h.1
  cases os with
  | nil => simp [openAfter, isOpening_closing ho]
  | cons top below =>
    have hne : partner? b.char ≠ some top.char := h.2
    simp [openAfter, isOpening_closing ho, hne]

theorem bracket_cases (os : List Bracket) (hb : isBracket b.char = true) :
    isOpening b.char = true ∨
      (∃ top below, os = top :: below ∧ partner? b.char = some top.char) ∨
      isUnexpected os b = true := by
  by_cases hopen : isOpening b.char = true
  · exact .inl hopen
  right
  have hclose : (partner? b.char).isSome = true := by simpa [isBracket, hopen] using hb
  cases os with
  | nil =>
    obtain ⟨o, ho⟩ := Option.isSome_iff_exists.mp hclose
    exact .inr (by simp [isUnexpected, ho])
  | cons top below =>
    by_cases htop : partner? b.char = some top.char
    · exact .inl ⟨top, below, rfl, htop⟩
    · exact .inr (by simp [isUnexpected, hclose, htop])

end

theorem opened_concat (w : List Bracket) (b : Bracket) :
    opened (w ++ [b]) = openAfter (opened w) b := by
  simp [opened, List.foldl_append]

theorem unexpectedFrom_append (os v w : List Bracket) :
    unexpectedFrom os (v ++ w) = unexpectedFrom os v ++ unexpectedFrom (v.foldl openAfter os) w := by
  induction v generalizing os with
  | nil => rfl
  | cons b v ih =>
    rw [List.cons_append, unexpectedFrom, unexpectedFrom, List.foldl_cons, ih]
    split <;> rfl

theorem unexpected_concat (w : List Bracket) (b : Bracket) :
    unexpected (w ++ [b]) = unexpected w ++ if isUnexpected (opened w) b then [b] else [] :=
  unexpectedFrom_append [] w [b]

theorem expectedFrom_eq_self {os w : List Bracket} (h : unexpectedFrom os w = []) :
    expectedFrom os w = w := by
  induction w generalizing os with
  | nil => rfl
  | cons b w ih =>
    rw [unexpectedFrom] at h
    split at h
    · cases h
    · rename_i hb
      rw [expectedFrom, if_neg hb, ih h]

/-! ## Balanced words -/

/-- The words of the grammar `S → ε | ( S ) S | [ S ] S | { S } S`. -/
inductive Dyck : List Char → Prop
  | nil : Dyck []
  | round {u v} : Dyck u → Dyck v → Dyck ('(' :: (u ++ ')' :: v))
  | square {u v} : Dyck u → Dyck v → Dyck ('[' :: (u ++ ']' :: v))
  | curly {u v} : Dyck u → Dyck v → Dyck ('{' :: (u ++ '}' :: v))

theorem Dyck.append {u v : List Char} (hu : Dyck u) (hv : Dyck v) : Dyck (u ++ v) := by
  induction hu with
  | nil => exact hv
  | round hin _ _ ih => simpa using Dyck.round hin ih
  | square hin _ _ ih => simpa using Dyck.square hin ih
  | curly hin _ _ ih => simpa using Dyck.curly hin ih

theorem Dyck.pair {o c : Char} {u : List Char} (h : partner? c = some o) (hu : Dyck u) :
    Dyck (o :: (u ++ [c])) := by
  rcases partner?_cases h with ⟨rfl, rfl⟩ | ⟨rfl, rfl⟩ | ⟨rfl, rfl⟩
  · exact .round hu .nil
  · exact .square hu .nil
  · exact .curly hu .nil

/-- Balanced words around the brackets that are left open, innermost first. -/
inductive Leaves : List Char → List Char → Prop
  | balanced {d} : Dyck d → Leaves d []
  | opening {w os o d} : Leaves w os → isOpening o = true → Dyck d → Leaves (w ++ o :: d) (o :: os)

namespace Leaves

variable {u w : List Char} {os : List Bracket}

theorem dyck (h : Leaves w []) : Dyck w := by
  cases h with
  | balanced h => exact h

theorem append {os d : List Char} (h : Leaves w os) (hd : Dyck d) : Leaves (w ++ d) os := by
  cases h with
  | balanced h => exact .balanced (h.append hd)
  | opening h ho h' =>
    rw [List.append_assoc, List.cons_append]
    exact .opening h ho (h'.append hd)

theorem closing {os : List Char} {o c : Char} (h : Leaves w (o :: os)) (hc : partner? c = some o) :
    Leaves (w ++ [c]) os := by
  cases h with
  | opening h _ hd =>
    rw [List.append_assoc, List.cons_append]
    exact h.append (.pair hc hd)

theorem expectedFrom {w : List Bracket} (h : Leaves u (chars os))
    (hw : ∀ b ∈ w, isBracket b.char = true) :
    Leaves (u ++ chars (expectedFrom os w)) (chars (w.foldl openAfter os)) := by
  induction w generalizing u os with
  | nil => simpa [Delimiter.expectedFrom, chars] using h
  | cons b w ih =>
    obtain ⟨hb, hw⟩ := List.forall_mem_cons.mp hw
    rw [Delimiter.expectedFrom, List.foldl_cons]
    rcases bracket_cases os hb with hopen | ⟨top, below, rfl, hclose⟩ | hunexpected
    · rw [isUnexpected_opening hopen, if_neg Bool.false_ne_true, openAfter_opening hopen]
      have hstep : Leaves (u ++ [b.char]) (chars (b :: os)) := .opening h hopen .nil
      simpa [chars] using ih hstep hw
    · rw [isUnexpected_closing hclose, if_neg Bool.false_ne_true, openAfter_closing hclose]
      simpa [chars] using ih (closing h hclose) hw
    · rw [if_pos hunexpected, openAfter_unexpected hunexpected]
      exact ih h hw

end Leaves

theorem leaves_opened {w : List Bracket} (hw : ∀ b ∈ w, isBracket b.char = true) :
    Leaves (chars (expected w)) (chars (opened w)) := by
  have h : Leaves [] (chars []) := .balanced .nil
  exact h.expectedFrom hw

theorem Dyck.closes {u : List Char} (h : Dyck u) {w : List Bracket} (hw : chars w = u)
    (os : List Bracket) : unexpectedFrom os w = [] ∧ w.foldl openAfter os = os := by
  have hpair : ∀ {o c : Char} {u v : List Char}, isOpening o = true → partner? c = some o →
      (∀ {w}, chars w = u → ∀ os, unexpectedFrom os w = [] ∧ w.foldl openAfter os = os) →
      (∀ {w}, chars w = v → ∀ os, unexpectedFrom os w = [] ∧ w.foldl openAfter os = os) →
      ∀ {w}, chars w = o :: (u ++ c :: v) →
        ∀ os, unexpectedFrom os w = [] ∧ w.foldl openAfter os = os := by
    intro o c u v ho hc hu hv w hw os
    obtain ⟨a, inner, rfl, rfl, hinner⟩ := List.map_eq_cons_iff.mp hw
    obtain ⟨wu, rest, rfl, rfl, hrest⟩ := List.map_eq_append_iff.mp hinner
    obtain ⟨b, wv, rfl, rfl, rfl⟩ := List.map_eq_cons_iff.mp hrest
    obtain ⟨hnone, hopen⟩ := hu rfl (a :: os)
    obtain ⟨hnone', hopen'⟩ := hv rfl os
    rw [unexpectedFrom, isUnexpected_opening ho, if_neg Bool.false_ne_true, openAfter_opening ho,
      unexpectedFrom_append, hnone, hopen, unexpectedFrom, isUnexpected_closing hc,
      if_neg Bool.false_ne_true, openAfter_closing hc, hnone', List.foldl_cons, List.foldl_append,
      openAfter_opening ho, hopen, List.foldl_cons, openAfter_closing hc, hopen']
    exact ⟨rfl, rfl⟩
  induction h generalizing w os with
  | nil =>
    rw [List.map_eq_nil_iff.mp hw]
    exact ⟨rfl, rfl⟩
  | round _ _ ihu ihv => exact hpair rfl rfl ihu ihv hw os
  | square _ _ ihu ihv => exact hpair rfl rfl ihu ihv hw os
  | curly _ _ ihu ihv => exact hpair rfl rfl ihu ihv hw os

/-- A word of brackets is balanced if and only if nothing is unexpected and nothing stays open. -/
theorem dyck_iff {w : List Bracket} (hw : ∀ b ∈ w, isBracket b.char = true) :
    Dyck (chars w) ↔ unexpected w = [] ∧ opened w = [] := by
  constructor
  · exact fun h => h.closes rfl []
  · rintro ⟨hunexpected, hopened⟩
    have h := leaves_opened hw
    rw [expected, expectedFrom_eq_self hunexpected, hopened] at h
    exact h.dyck

end ApiTypes.Delimiter
