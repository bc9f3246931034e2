import ApiTypes.Delimiter
import ApiTypes.Proofs.Comment
import ApiTypes.Proofs.Literal

/-!
# Balanced texts

`Turns os cs ps` says how a text is put together from plain characters, brackets, quoted texts and
comments, and which brackets it closes and opens. The reader of delimiters agrees: from code with
the brackets `os` open it comes back to code with `ps` open, and finds no problem on the way.
-/

namespace ApiTypes.Delimiter

def isPlain (c : Char) : Bool := !(c == '/' || isQuote c || isOpening c || (partner? c).isSome)

/-- The open brackets are innermost first. -/
inductive Turns : List Char → List Char → List Char → Prop
  | nil {os} : Turns os [] os
  | plain {os c} : isPlain c = true → Turns os [c] os
  | opening {os c} : isOpening c = true → Turns os [c] (c :: os)
  | closing {os c d} : partner? d = some c → Turns (c :: os) [d] os
  | quoted {os} (cs) : Turns os ('"' :: (Text.escape cs ++ ['"'])) os
  | comment {os cs} : Prose.StaysOpen cs → Turns os ('/' :: '*' :: (cs ++ ['*', '/'])) os
  | append {os ps qs cs ds} : Turns os cs ps → Turns ps ds qs → Turns os (cs ++ ds) qs

def Balanced (cs : List Char) : Prop := ∀ os, Turns os cs os

/-! ## Reading -/

/-- From the mode `m`, the characters lead back to it and change nothing but the line. -/
def Keeps (m : Mode) (cs : List Char) : Prop :=
  ∀ s : State, s.mode = m → ∃ line, cs.foldl step s = { s with line := line }

section
variable {m : Mode} {cs ds : List Char}

theorem Keeps.nil : Keeps m [] := fun s _ => ⟨s.line, rfl⟩

theorem Keeps.append (hcs : Keeps m cs) (hds : Keeps m ds) : Keeps m (cs ++ ds) := by
  intro s hs
  obtain ⟨line, h⟩ := hcs s hs
  obtain ⟨line', h'⟩ := hds { s with line := line } hs
  exact ⟨line', by rw [List.foldl_append, h, h']⟩

theorem Keeps.singleton {c : Char} (hmode : modeAfter m c = m)
    (hcode : m.inCode = true → isOpening c = false ∧ partner? c = none) : Keeps m [c] := by
  rintro ⟨mode, line, openings, found⟩ rfl
  refine ⟨lineAfter ⟨mode, line, openings, found⟩ c, ?_⟩
  dsimp only at hmode hcode
  rw [List.foldl_cons, List.foldl_nil, step]
  dsimp only
  rw [hmode]
  by_cases h : mode.inCode = true
  · obtain ⟨hopen, hpartner⟩ := hcode h
    rw [if_pos h]
    simp [bracket, hopen, hpartner]
  · rw [if_neg h]

end

theorem keeps_plain {c : Char} (h : isPlain c = true) : Keeps .code [c] := by
  unfold isPlain at h
  simp only [Bool.not_eq_true', Bool.or_eq_false_iff, beq_eq_false_iff_ne, Option.isSome_eq_false_iff,
    Option.isNone_iff_eq_none] at h
  obtain ⟨⟨⟨hslash, hquote⟩, hopen⟩, hpartner⟩ := h
  apply Keeps.singleton
  · simp [modeAfter, modeInCode, hslash, hquote]
  · exact fun _ => ⟨hopen, hpartner⟩

theorem step_opening {c : Char} (h : isOpening c = true) (line : Nat)
    (openings : List (Char × Nat)) (found : List Problem) :
    step ⟨.code, line, openings, found⟩ c = ⟨.code, line, (c, line) :: openings, found⟩ := by
  unfold isOpening at h
  simp only [Bool.or_eq_true, beq_iff_eq] at h
  rcases h with (rfl | rfl) | rfl <;> rfl

theorem step_closing {c d : Char} (h : partner? d = some c) (line place : Nat)
    (openings : List (Char × Nat)) (found : List Problem) :
    step ⟨.code, line, (c, place) :: openings, found⟩ d = ⟨.code, line, openings, found⟩ := by
  unfold partner? at h
  split at h
  · rename_i hd
    cases h
    rw [beq_iff_eq.mp hd]
    rfl
  split at h
  · rename_i hd
    cases h
    rw [beq_iff_eq.mp hd]
    rfl
  split at h
  · rename_i hd
    cases h
    rw [beq_iff_eq.mp hd]
    rfl
  · cases h

/-! ### Quoted texts -/

theorem keeps_inLiteral {c : Char} (hquote : c ≠ '"') (hslash : c ≠ '\\') :
    Keeps (.literal '"') [c] := by
  apply Keeps.singleton
  · simp [modeAfter, hquote, hslash]
  · intro h
    cases h

theorem keeps_escape {c : Char} : Keeps (.literal '"') ['\\', c] := by
  intro s hs
  refine ⟨s.line, ?_⟩
  simp [step, hs, Mode.inCode, modeAfter, lineAfter]

theorem keeps_escapeChar (c : Char) : Keeps (.literal '"') (Text.escapeChar c) := by
  have h := Text.escaped_escapeChar c
  generalize Text.escapeChar c = es at h ⊢
  cases h with
  | plain hquote hslash => exact keeps_inLiteral hquote hslash
  | short _ => exact keeps_escape
  | code _ =>
    have hdigits : ∀ cs : List Char, (∀ d ∈ cs, d ≠ '"' ∧ d ≠ '\\') → Keeps (.literal '"') cs := by
      intro cs h
      induction cs with
      | nil => exact .nil
      | cons d cs ih =>
        obtain ⟨hd, hcs⟩ := List.forall_mem_cons.mp h
        exact (keeps_inLiteral hd.1 hd.2).append (ih hcs)
    exact keeps_escape.append (hdigits _ fun d hd => Text.ne_quote_of_mem_hexDigits hd)

theorem keeps_quoted (cs : List Char) : Keeps .code ('"' :: (Text.escape cs ++ ['"'])) := by
  have hinside : Keeps (.literal '"') (Text.escape cs) := by
    unfold Text.escape
    induction cs with
    | nil => exact .nil
    | cons c cs ih =>
      rw [List.flatMap_cons]
      exact (keeps_escapeChar c).append ih
  intro s hs
  have hfirst : step s '"' = { s with mode := .literal '"', line := s.line } := by
    simp [step, hs, Mode.inCode, bracket, isOpening, partner?, modeAfter, modeInCode, isQuote,
      lineAfter]
  obtain ⟨line, h⟩ := hinside { s with mode := .literal '"', line := s.line } rfl
  rw [List.foldl_cons, hfirst, List.foldl_append, h]
  refine ⟨line, ?_⟩
  simp [step, Mode.inCode, modeAfter, lineAfter, ← hs]

/-! ### Comments -/

/-- A comment is left behind its closing mark. The asterisk of the mark may follow others, so the
statement for a reader behind an asterisk is proved along with it. -/
theorem foldl_comment {cs : List Char} (h : Prose.StaysOpen cs) (s : State)
    (hs : s.mode = .blockComment) :
    ∃ line, (cs ++ ['*', '/']).foldl step s = { s with mode := .code, line := line } := by
  -- one induction for both modes, since an asterisk may open the closing mark
  have hall : ∀ s : State,
      (s.mode = .blockComment → Prose.StaysOpen cs →
        ∃ line, (cs ++ ['*', '/']).foldl step s = { s with mode := .code, line := line }) ∧
      (s.mode = .asterisk → Prose.StaysOpen ('*' :: cs) →
        ∃ line, (cs ++ ['*', '/']).foldl step s = { s with mode := .code, line := line }) := by
    clear h hs s
    induction cs with
    | nil =>
      intro s
      constructor
      · intro hs _
        exact ⟨s.line, by simp [step, hs, Mode.inCode, modeAfter, lineAfter]⟩
      · intro hs _
        exact ⟨s.line, by simp [step, hs, Mode.inCode, modeAfter, lineAfter]⟩
    | cons c cs ih =>
      intro s
      have hstep : ∀ m, s.mode = m → m.inCode = false →
          step s c = { s with mode := modeAfter m c, line := lineAfter s c } := by
        rintro m rfl hm
        simp [step, hm]
      constructor
      · intro hs h
        rw [List.cons_append, List.foldl_cons, hstep _ hs rfl]
        by_cases hc : c = '*'
        · subst hc
          exact (ih _).2 rfl h
        · exact (ih _).1 (by simp [modeAfter, hc]) (Prose.staysOpen_cons.mp h).2
      · intro hs h
        have hc : c ≠ '/' := fun hc => (Prose.staysOpen_cons.mp h).1 ⟨rfl, by simp [hc]⟩
        have h := (Prose.staysOpen_cons.mp h).2
        rw [List.cons_append, List.foldl_cons, hstep _ hs rfl]
        -- another asterisk leaves the mark as near as before
        by_cases hstar : c = '*'
        · subst hstar
          exact (ih _).2 rfl h
        · exact (ih _).1 (by simp [modeAfter, hc, hstar]) (Prose.staysOpen_cons.mp h).2
  exact (hall s).1 hs h

theorem keeps_comment {cs : List Char} (h : Prose.StaysOpen cs) :
    Keeps .code ('/' :: '*' :: (cs ++ ['*', '/'])) := by
  intro s hs
  have hopen : step (step s '/') '*' = { s with mode := .blockComment, line := s.line } := by
    simp [step, hs, Mode.inCode, bracket, isOpening, partner?, modeAfter, modeInCode, lineAfter]
  obtain ⟨line, hline⟩ := foldl_comment h { s with mode := .blockComment, line := s.line } rfl
  rw [List.foldl_cons, List.foldl_cons, hopen, hline]
  exact ⟨line, by rw [← hs]⟩

/-! ### Whole texts -/

theorem Turns.foldl_step {os ps cs : List Char} (h : Turns os cs ps) {s : State}
    (hs : s.mode = .code) (hos : s.openings.map (·.1) = os) :
    ∃ line openings, cs.foldl step s = ⟨.code, line, openings, s.found⟩ ∧
      openings.map (·.1) = ps := by
  -- a part that moves no bracket ends where it began, on another line
  have hkeeps : ∀ {os cs}, Keeps .code cs → ∀ s : State, s.mode = .code →
      s.openings.map (·.1) = os → ∃ line openings, cs.foldl step s =
        ⟨.code, line, openings, s.found⟩ ∧ openings.map (·.1) = os := by
    intro os cs h s hs hos
    obtain ⟨line, h⟩ := h s hs
    exact ⟨line, s.openings, by rw [h, hs], hos⟩
  induction h generalizing s with
  | nil => exact hkeeps .nil s hs hos
  | plain h => exact hkeeps (keeps_plain h) s hs hos
  | @opening os c h =>
    obtain ⟨mode, line, openings, found⟩ := s
    cases hs
    exact ⟨line, (c, line) :: openings, step_opening h line openings found, by simpa using hos⟩
  | @closing os c d h =>
    obtain ⟨mode, line, openings, found⟩ := s
    cases hs
    obtain ⟨⟨b, place⟩, below, rfl, hb, hbelow⟩ := List.map_eq_cons_iff.mp hos
    cases hb
    exact ⟨line, below, step_closing h line place below found, hbelow⟩
  | quoted cs => exact hkeeps (keeps_quoted cs) s hs hos
  | comment h => exact hkeeps (keeps_comment h) s hs hos
  | append _ _ ihcs ihds =>
    obtain ⟨line, openings, hcs, hps⟩ := ihcs hs hos
    obtain ⟨line', openings', hds, hqs⟩ := ihds (s := ⟨.code, line, openings, s.found⟩) rfl hps
    exact ⟨line', openings', by rw [List.foldl_append, hcs, hds], hqs⟩

theorem Balanced.problems {s : String} (h : Balanced s.toList) : problems s = [] := by
  obtain ⟨line, openings, hend, hnone⟩ := (h []).foldl_step (s := start) rfl rfl
  rw [List.map_eq_nil_iff.mp hnone] at hend
  unfold Delimiter.problems
  rw [hend]
  rfl

/-! ## Parts -/

def openBehind : List Char → List Char → Option (List Char)
  | os, [] => some os
  | os, c :: cs =>
    if isPlain c then openBehind os cs
    else if isOpening c then openBehind (c :: os) cs
    else match os with
      | [] => none
      | top :: os => if partner? c = some top then openBehind os cs else none

theorem turns_of_openBehind {os cs ps : List Char} (h : openBehind os cs = some ps) :
    Turns os cs ps := by
  induction cs generalizing os with
  | nil =>
    cases h
    exact .nil
  | cons c cs ih =>
    rw [← List.singleton_append]
    unfold openBehind at h
    split at h
    · exact .append (.plain ‹_›) (ih h)
    split at h
    · exact .append (.opening ‹_›) (ih h)
    cases os with
    | nil => cases h
    | cons top os =>
      dsimp only at h
      split at h
      · exact .append (.closing ‹_›) (ih h)
      · cases h

section
variable {cs ds : List Char}

theorem Balanced.nil : Balanced [] := fun _ => .nil

theorem Balanced.append (hcs : Balanced cs) (hds : Balanced ds) : Balanced (cs ++ ds) :=
  fun os => (hcs os).append (hds os)

theorem Turns.text_append {os ps qs : List Char} {s t : String} (hs : Turns os s.toList ps)
    (ht : Turns ps t.toList qs) : Turns os (s ++ t).toList qs := by
  rw [String.toList_append]
  exact hs.append ht

theorem balanced_fixed (h : ∀ os, openBehind os cs = some os) : Balanced cs :=
  fun os => turns_of_openBehind (h os)

theorem balanced_of_plain (h : ∀ c ∈ cs, isPlain c = true) : Balanced cs := by
  induction cs with
  | nil => exact .nil
  | cons c cs ih =>
    obtain ⟨hc, hcs⟩ := List.forall_mem_cons.mp h
    have hfirst : Balanced [c] := fun _ => .plain hc
    exact hfirst.append (ih hcs)

theorem Balanced.intercalate {ls : List (List Char)} (hcs : Balanced cs)
    (h : ∀ l ∈ ls, Balanced l) : Balanced (cs.intercalate ls) := by
  induction ls with
  | nil => exact .nil
  | cons l ls ih =>
    obtain ⟨hl, hls⟩ := List.forall_mem_cons.mp h
    cases ls with
    | nil => simpa using hl
    | cons m ls =>
      rw [List.intercalate_cons_cons]
      exact (hl.append hcs).append (ih hls)

end

theorem balanced_intercalate {sep : String} {texts : List String} (hsep : Balanced sep.toList)
    (h : ∀ s ∈ texts, Balanced s.toList) : Balanced (String.intercalate sep texts).toList := by
  rw [String.toList_intercalate]
  apply hsep.intercalate
  intro l hl
  obtain ⟨s, hs, rfl⟩ := List.mem_map.mp hl
  exact h s hs

theorem isPlain_of_isNameChar {c : Char} (h : Lexeme.isNameChar c = true) : isPlain c = true := by
  have hnone : ['/', '\'', '"', '\x60', '(', '[', '\x7b', ')', ']', '\x7d'].all
      (fun d => !Lexeme.isNameChar d) = true := rfl
  have hne : ∀ d ∈ ['/', '\'', '"', '\x60', '(', '[', '\x7b', ')', ']', '\x7d'], c ≠ d := by
    rintro d hd rfl
    have := List.all_eq_true.mp hnone c hd
    simp [h] at this
  simp only [List.forall_mem_cons] at hne
  simp [isPlain, isQuote, isOpening, partner?, hne]

theorem balanced_name {cs : List Char} (h : ∀ c ∈ cs, Lexeme.isNameChar c = true) : Balanced cs :=
  balanced_of_plain fun c hc => isPlain_of_isNameChar (h c hc)

theorem Balanced.text_append {s t : String} (hs : Balanced s.toList) (ht : Balanced t.toList) :
    Balanced (s ++ t).toList := fun os => (hs os).text_append (ht os)

/-- A text between two fixed ones, of which the first opens the brackets that the second closes. -/
theorem Balanced.between (opened : List Char) {s opening closing : String} (hs : Balanced s.toList)
    (hopen : ∀ os, openBehind os opening.toList = some (opened ++ os))
    (hclose : ∀ os, openBehind (opened ++ os) closing.toList = some os) :
    Balanced (opening ++ s ++ closing).toList := by
  intro os
  have hfirst : Turns os opening.toList (opened ++ os) := turns_of_openBehind (hopen os)
  exact (hfirst.text_append (hs _)).text_append (turns_of_openBehind (hclose os))

/-! ### Literals -/

theorem balanced_digits {cs : List Char} (h : Number.AreDigits cs) : Balanced cs :=
  balanced_name fun c hc => Lexeme.isNameChar_of_isDigit (h.2 c hc)

theorem balanced_mantissa {cs : List Char} (h : Number.Mantissa cs) : Balanced cs := by
  cases h with
  | whole h => exact balanced_digits h
  | @fraction ds fs hds hfs =>
    have hpoint : Balanced ['.'] := balanced_fixed fun _ => rfl
    exact (balanced_digits hds).append (hpoint.append (balanced_digits hfs))

theorem balanced_number {cs : List Char} (h : Number.Form cs) : Balanced cs := by
  cases h with
  | mantissa h => exact balanced_mantissa h
  | @exponent cs s ds h hs hds =>
    have hmark : Balanced ['e', s] := by
      unfold Lexeme.isSign at hs
      simp only [Bool.or_eq_true, beq_iff_eq] at hs
      rcases hs with rfl | rfl
      · exact balanced_fixed fun _ => rfl
      · exact balanced_fixed fun _ => rfl
    exact (balanced_mantissa h).append (hmark.append (balanced_digits hds))

theorem balanced_signed {cs : List Char} (h : Number.Signed cs) : Balanced cs := by
  cases h with
  | positive h => exact balanced_number h
  | negative h =>
    have hminus : Balanced ['-'] := balanced_fixed fun _ => rfl
    exact hminus.append (balanced_number h)

theorem balanced_quoted (s : String) : Balanced (Text.quoted s).toList := by
  rw [Text.quoted, String.toList_ofList]
  exact fun _ => .quoted _

end ApiTypes.Delimiter

namespace ApiTypes

open Delimiter

theorem Scalar.balanced_json (s : Scalar) : Balanced s.json.toList := by
  cases s with
  | null => exact balanced_fixed fun _ => rfl
  | bool b =>
    cases b with
    | false => exact balanced_fixed fun _ => rfl
    | true => exact balanced_fixed fun _ => rfl
  | int n => exact balanced_signed (Number.signed_int n)
  | float x =>
    cases h : x.isInf with
    | true =>
      show Balanced (Decimal.floatText "Infinity" x).toList
      rcases Number.floatText_of_isInf h "Infinity" with ht | ht
      · rw [ht]
        exact balanced_fixed fun _ => rfl
      · rw [ht]
        exact balanced_fixed fun _ => rfl
    | false => exact balanced_signed (Number.signed_float h _)
  | nan origin =>
    show Balanced "NaN".toList
    exact balanced_fixed fun _ => rfl
  | text s => exact balanced_quoted s
  | date d => exact balanced_quoted _
  | dateTime t => exact balanced_quoted _
  | bytes bs => exact balanced_quoted _

theorem Value.balanced_json (v : Value) : Balanced v.json.toList := by
  have hcomma : Balanced ", ".toList := balanced_fixed fun _ => rfl
  have hitems : ∀ items : List Value, (∀ v ∈ items, Balanced v.json.toList) →
      Balanced (bracketed "[" "]" (jsonItems items)).toList := by
    intro items ih
    have hinside : Balanced (String.intercalate ", " (jsonItems items)).toList := by
      rw [jsonItems_eq_map]
      exact balanced_intercalate hcomma (List.forall_mem_map.mpr ih)
    exact hinside.between ['['] (fun _ => rfl) fun _ => rfl
  induction v with
  | scalar s => exact s.balanced_json
  | seq items ih => exact hitems items ih
  | tuple items ih => exact hitems items ih
  | map entries ih =>
    have hcolon : Balanced ": ".toList := balanced_fixed fun _ => rfl
    have hinside : Balanced (String.intercalate ", " (jsonEntries entries)).toList := by
      rw [jsonEntries_eq_map]
      refine balanced_intercalate hcomma (List.forall_mem_map.mpr fun e he => ?_)
      rw [Scalar.jsonKey_eq]
      exact ((balanced_quoted _).text_append hcolon).text_append (ih e he)
    exact hinside.between ['\x7b'] (fun _ => rfl) fun _ => rfl
  | set members => exact balanced_quoted _
  | link n =>
    show Balanced "null".toList
    exact balanced_fixed fun _ => rfl

end ApiTypes
