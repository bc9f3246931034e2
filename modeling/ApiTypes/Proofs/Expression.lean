import Mathlib.Tactic.Choose
import ApiTypes.Proofs.Number

/-!
# Expressions

The expressions that validators are written in, and their reader, which takes one lexeme after the
other. `Reads p cs e` says that `cs` is read as the expression `e` wherever no character of `p`
follows it; its lemmas are the rules by which texts of expressions are put together.
-/

namespace ApiTypes

inductive Expression
  | name (cs : List Char)
  | text (cs : List Char)
  | number (cs : List Char)
  | minus (e : Expression)
  | member (e : Expression) (name : List Char)
  | call (f : Expression) (arguments : List Expression)
  | list (items : List Expression)
  | record (fields : List (List Char × Expression))
  /-- A function without parameters, whose body is not evaluated before it is called. -/
  | function (body : Expression)

namespace Expression

/-! ## Reading -/

inductive Frame
  /-- The arguments of `f`, or the items of a list where there is no `f`. `isBody` tells that the
  expression is the body of a function. -/
  | sequence (f : Option Expression) (done : List Expression) (isBody : Bool)
  | field (done : List (List Char × Expression)) (key : List Char)

inductive Mode
  | operand
  | minus
  | arrow (ls : List Lexeme)
  | after (e : Expression)
  | key (done : List (List Char × Expression))
  | colon (done : List (List Char × Expression)) (key : List Char)

structure Reader where
  mode : Mode
  outer : List Frame

def ofWord? (cs : List Char) : Option Expression :=
  match cs with
  | [] => none
  | c :: _ =>
    if c == '.' then none
    else if c.isDigit then if (Number.read? cs).isSome then some (.number cs) else none
    else some (.name cs)

def closer (f : Option Expression) : Char := if f.isSome then ')' else ']'

def ofSequence (f : Option Expression) (parts : List Expression) : Expression :=
  match f with
  | some f => .call f parts
  | none => .list parts

def opened (outer : List Frame) (c : Char) : Option Reader :=
  if c == '[' then some ⟨.operand, .sequence none [] false :: outer⟩
  else if c == '\x7b' then some ⟨.key [], outer⟩
  else if c == '-' then some ⟨.minus, outer⟩
  else match outer with
    | .sequence f done false :: outer =>
      if c == '(' then
        some ⟨.arrow [.mark ')', .mark '=', .mark '>'], .sequence f done true :: outer⟩
      else if c == closer f && done.isEmpty then some ⟨.after (ofSequence f []), outer⟩
      else none
    | _ => none

def closed (outer : List Frame) (e : Expression) (c : Char) : Option Reader :=
  if c == '(' then some ⟨.operand, .sequence (some e) [] false :: outer⟩
  else match outer with
    | .sequence f done isBody :: outer =>
      let done := (if isBody then .function e else e) :: done
      if c == ',' then some ⟨.operand, .sequence f done false :: outer⟩
      else if c == closer f then some ⟨.after (ofSequence f done.reverse), outer⟩
      else none
    | .field done key :: outer =>
      if c == ',' then some ⟨.key ((key, e) :: done), outer⟩
      else if c == '\x7d' then some ⟨.after (.record ((key, e) :: done).reverse), outer⟩
      else none
    | [] => none

def step (r : Reader) (l : Lexeme) : Option Reader :=
  match r.mode, l with
  | .operand, .word cs => (ofWord? cs).map fun e => ⟨.after e, r.outer⟩
  | .operand, .text cs => (Text.unescape? cs).map fun s => ⟨.after (.text s), r.outer⟩
  | .operand, .mark c => opened r.outer c
  | .minus, .word cs => (ofWord? cs).map fun e => ⟨.after (.minus e), r.outer⟩
  | .arrow [l'], l => if l = l' then some ⟨.operand, r.outer⟩ else none
  | .arrow (l' :: ls), l => if l = l' then some ⟨.arrow ls, r.outer⟩ else none
  | .after e, .word ('.' :: cs) => some ⟨.after (.member e cs), r.outer⟩
  | .after e, .mark c => closed r.outer e c
  | .key done, .text cs => (Text.unescape? cs).map fun s => ⟨.colon done s, r.outer⟩
  | .key [], .mark '\x7d' => some ⟨.after (.record []), r.outer⟩
  | .colon done key, .mark ':' => some ⟨.operand, .field done key :: r.outer⟩
  | _, _ => none

def run (r : Reader) (ls : List Lexeme) : Option Reader := ls.foldlM step r

def read? (ls : List Lexeme) : Option Expression :=
  match run ⟨.operand, []⟩ ls with
  | some ⟨.after e, []⟩ => some e
  | _ => none

theorem run_cons (r : Reader) (l : Lexeme) (ls : List Lexeme) :
    run r (l :: ls) = (step r l).bind fun r => run r ls := rfl

theorem run_append (r : Reader) (ls ks : List Lexeme) :
    run r (ls ++ ks) = (run r ls).bind fun r => run r ks := by
  rw [run, List.foldlM_append]
  rfl

/-! ## Rules -/

def Reads (p : Char → Bool) (cs : List Char) (e : Expression) : Prop :=
  ∃ ls, Lexeme.Spells p cs ls ∧ ∀ outer, run ⟨.operand, outer⟩ ls = some ⟨.after e, outer⟩

section
variable {p q : Char → Bool} {cs ds : List Char} {e f : Expression}

theorem Reads.mono (h : Reads p cs e) (hpq : ∀ c, p c = true → q c = true) : Reads q cs e := by
  obtain ⟨ls, hs, hr⟩ := h
  exact ⟨ls, hs.mono hpq, hr⟩

theorem Reads.word (h : Reads Lexeme.isNameChar cs e) : Reads Lexeme.isWordChar cs e :=
  h.mono fun c hc => by simp [Lexeme.isWordChar, hc]

theorem Reads.weaken (h : Reads Lexeme.never cs e) : Reads p cs e :=
  h.mono fun _ hc => by cases hc

theorem Reads.read?_eq (h : Reads p cs e) : read? (Lexeme.scan .code cs) = some e := by
  obtain ⟨ls, hs, hr⟩ := h
  rw [hs.scan_eq, read?, hr]

theorem ofWord?_name (h : Lexeme.isName cs = true) : ofWord? cs = some (.name cs) := by
  cases cs with
  | nil => cases h
  | cons c cs =>
    simp only [Lexeme.isName, Bool.and_eq_true, Bool.not_eq_true'] at h
    have hp : (c == '.') = false := by
      rw [beq_eq_false_iff_ne]
      rintro rfl
      exact absurd h.1.1 (by decide)
    simp [ofWord?, h.1.2, hp]

theorem Reads.name (h : Lexeme.isName cs = true) : Reads Lexeme.isNameChar cs (.name cs) := by
  refine ⟨_, .name h, fun outer => ?_⟩
  simp [run, step, ofWord?_name h]

theorem Reads.member (h : Reads Lexeme.isNameChar cs e)
    (hds : ∀ d ∈ ds, Lexeme.isNameChar d = true) :
    Reads Lexeme.isNameChar (cs ++ '.' :: ds) (.member e ds) := by
  obtain ⟨ls, hs, hr⟩ := h
  refine ⟨_, hs.append (.member hds) (by intro c hc; cases hc; decide) (by simp), fun outer => ?_⟩
  rw [run_append, hr]
  rfl

theorem Reads.text (s : String) : Reads Lexeme.never (Text.quoted s).toList (.text s.toList) := by
  refine ⟨_, .quoted s, fun outer => ?_⟩
  simp [run, step, Text.unescape?_escape]

theorem ofWord?_number (h : Number.Form cs) : ofWord? cs = some (.number cs) := by
  have hhead := h.head
  cases cs with
  | nil => simp at hhead
  | cons c cs =>
    have hd : c.isDigit = true := hhead
    have hp : (c == '.') = false := by
      rw [beq_eq_false_iff_ne]
      rintro rfl
      exact absurd hd (by decide)
    simp [ofWord?, hd, hp, h.isSome_read?]

theorem Reads.number (h : Number.Form cs) : Reads Lexeme.isWordChar cs (.number cs) := by
  refine ⟨_, h.spells, fun outer => ?_⟩
  simp [run, step, ofWord?_number h]

theorem Reads.minus (hs : Lexeme.Spells p cs [.word cs])
    (h : ofWord? cs = some e) : Reads p ('-' :: cs) (.minus e) := by
  have hminus : Lexeme.Spells Lexeme.never ['-'] [.mark '-'] := fun _ _ => rfl
  refine ⟨_, hminus.append_never hs, fun outer => ?_⟩
  show run ⟨.minus, outer⟩ [.word cs] = _
  simp [run, step, h]

/-! ## Sequences -/

def commas (texts : List (List Char)) : List Char := [',', ' '].intercalate texts

theorem run_sequence {α : Type} {items : List α} {ls : α → List Lexeme} {es : α → Expression}
    (h : ∀ a ∈ items, ∀ outer, run ⟨.operand, outer⟩ (ls a) = some ⟨.after (es a), outer⟩)
    (hne : items ≠ []) (f : Option Expression) (done : List Expression) (outer : List Frame) :
    run ⟨.operand, .sequence f done false :: outer⟩
      ([.mark ','].intercalate (items.map ls) ++ [.mark (closer f)]) =
    some ⟨.after (ofSequence f (done.reverse ++ items.map es)), outer⟩ := by
  have hclose : (closer f == '(') = false ∧ (closer f == ',') = false := by
    cases f <;> exact ⟨rfl, rfl⟩
  induction items generalizing done with
  | nil => exact absurd rfl hne
  | cons a items ih =>
    have ha := h a List.mem_cons_self
    cases items with
    | nil =>
      rw [run_append]
      simp only [List.map_cons, List.map_nil, List.intercalate_singleton, ha, Option.bind_some]
      rw [run_cons]
      simp [step, closed, hclose.1, hclose.2, run]
    | cons b items =>
      have ih := ih (fun c hc => h c (List.mem_cons_of_mem _ hc)) (by simp) (es a :: done)
      simp only [List.map_cons, List.intercalate_cons_cons, List.append_assoc] at ih ⊢
      rw [run_append, ha, Option.bind_some, List.singleton_append, run_cons]
      simpa [step, closed] using ih

theorem run_fields {α : Type} {items : List α} {key : α → List Char} {ls : α → List Lexeme}
    {es : α → Expression}
    (h : ∀ a ∈ items, ∀ outer, run ⟨.operand, outer⟩ (ls a) = some ⟨.after (es a), outer⟩)
    (hne : items ≠ []) (done : List (List Char × Expression)) (outer : List Frame) :
    run ⟨.key done, outer⟩ ([.mark ','].intercalate (items.map fun a =>
        .text (Text.escape (key a)) :: .mark ':' :: ls a) ++ [.mark '\x7d']) =
    some ⟨.after (.record (done.reverse ++ items.map fun a => (key a, es a))), outer⟩ := by
  induction items generalizing done with
  | nil => exact absurd rfl hne
  | cons a items ih =>
    -- behind a key, a colon and its value the next mark decides
    have hkey : ∀ ks, run ⟨.key done, outer⟩ (.text (Text.escape (key a)) :: .mark ':' ::
        (ls a ++ ks)) = run ⟨.after (es a), .field done (key a) :: outer⟩ ks := by
      intro ks
      rw [run_cons]
      simp only [step, Text.unescape?_escape, Option.map_some, Option.bind_some]
      rw [run_cons]
      simp only [step, Option.bind_some]
      rw [run_append, h a List.mem_cons_self, Option.bind_some]
    cases items with
    | nil =>
      simp only [List.map_cons, List.map_nil, List.intercalate_singleton, List.cons_append]
      rw [hkey, run_cons]
      simp [step, closed, run]
    | cons b items =>
      have ih := ih (fun c hc => h c (List.mem_cons_of_mem _ hc)) (by simp) ((key a, es a) :: done)
      simp only [List.map_cons, List.intercalate_cons_cons, List.append_assoc,
        List.cons_append] at ih ⊢
      rw [hkey, List.nil_append, run_cons]
      simpa [step, closed] using ih

theorem Spells.between {α : Type} {items : List α} {cs : α → List Char} {ls : α → List Lexeme}
    (h : ∀ a ∈ items, Lexeme.Spells Lexeme.isWordChar (cs a) (ls a)) {opening closing : List Char}
    {l k : List Lexeme} (hl : Lexeme.Spells Lexeme.never opening l)
    (hk : Lexeme.Spells Lexeme.never closing k)
    (hend : ∀ c ∈ closing.head?, Lexeme.isWordChar c = false) (hne : closing ≠ []) :
    Lexeme.Spells Lexeme.never (opening ++ (commas (items.map cs) ++ closing))
      (l ++ ([.mark ','].intercalate (items.map ls) ++ k)) := by
  have hsep : Lexeme.Spells Lexeme.never [',', ' '] [.mark ','] := fun _ _ => rfl
  have hitems := Lexeme.Spells.intercalate hsep (by intro c hc; cases hc; decide) (by simp) h
  exact hl.append_never (hitems.append hk hend hne)

theorem spells_mark {c : Char} (h : Lexeme.enter c = ([.mark c], .code)) :
    Lexeme.Spells Lexeme.never [c] [.mark c] := by
  intro rest _
  rw [List.singleton_append, Lexeme.scan, Lexeme.step, h]

theorem Reads.call {α : Type} {items : List α} {ds : α → List Char} {es : α → Expression}
    (hf : Reads p cs f) (hp : p '(' = false)
    (h : ∀ a ∈ items, Reads Lexeme.isWordChar (ds a) (es a)) :
    Reads Lexeme.never (cs ++ '(' :: (commas (items.map ds) ++ [')']))
      (.call f (items.map es)) := by
  obtain ⟨lf, hsf, hrf⟩ := hf
  choose! ls hs hr using h
  have hall := Spells.between hs (spells_mark (c := '(') rfl) (spells_mark (c := ')') rfl)
    (by intro c hc; cases hc; decide) (by simp)
  refine ⟨_, hsf.append hall (by intro c hc; cases hc; exact hp) (by simp), fun outer => ?_⟩
  rw [run_append, hrf, Option.bind_some, List.singleton_append, run_cons]
  by_cases hne : items = []
  · subst hne
    rfl
  · exact run_sequence hr hne (some f) [] outer

theorem Reads.callFunction (hf : Reads p cs f) (hp : p '(' = false)
    (h : Reads Lexeme.isWordChar ds e) :
    Reads Lexeme.never (cs ++ ("(() => ".toList ++ (ds ++ [')']))) (.call f [.function e]) := by
  obtain ⟨lf, hsf, hrf⟩ := hf
  obtain ⟨ls, hs, hr⟩ := h
  have harrow : Lexeme.Spells Lexeme.never "(() => ".toList
      [.mark '(', .mark '(', .mark ')', .mark '=', .mark '>'] := fun _ _ => rfl
  have hclose := hs.append (spells_mark (c := ')') rfl) (by intro c hc; cases hc; decide) (by simp)
  have hall := hsf.append (harrow.append_never hclose) (by intro c hc; cases hc; exact hp) (by simp)
  refine ⟨_, hall, fun outer => ?_⟩
  have hopen : run ⟨.after f, outer⟩ [.mark '(', .mark '(', .mark ')', .mark '=', .mark '>'] =
      some ⟨.operand, .sequence (some f) [] true :: outer⟩ := rfl
  rw [run_append, hrf, Option.bind_some, run_append, hopen, Option.bind_some, run_append, hr]
  rfl

theorem Reads.list {α : Type} {items : List α} {ds : α → List Char} {es : α → Expression}
    (h : ∀ a ∈ items, Reads Lexeme.isWordChar (ds a) (es a)) :
    Reads Lexeme.never ('[' :: (commas (items.map ds) ++ [']'])) (.list (items.map es)) := by
  choose! ls hs hr using h
  have hall := Spells.between hs (spells_mark (c := '[') rfl) (spells_mark (c := ']') rfl)
    (by intro c hc; cases hc; decide) (by simp)
  refine ⟨_, hall, fun outer => ?_⟩
  rw [List.singleton_append, run_cons]
  by_cases hne : items = []
  · subst hne
    rfl
  · exact run_sequence hr hne none [] outer

def fieldText (key : String) (cs : List Char) : List Char :=
  (Text.quoted key).toList ++ [':', ' '] ++ cs

theorem Reads.record {α : Type} {items : List α} (key : α → String) {ds : α → List Char}
    {es : α → Expression} (h : ∀ a ∈ items, Reads Lexeme.isWordChar (ds a) (es a))
    {opening closing : List Char} (hl : Lexeme.Spells Lexeme.never opening [.mark '\x7b'])
    (hk : Lexeme.Spells Lexeme.never closing [.mark '\x7d'])
    (hend : ∀ c ∈ closing.head?, Lexeme.isWordChar c = false) (hne : closing ≠ []) :
    Reads Lexeme.never (opening ++ (commas (items.map fun a => fieldText (key a) (ds a)) ++ closing))
      (.record (items.map fun a => ((key a).toList, es a))) := by
  choose! ls hs hr using h
  have hcolon : Lexeme.Spells Lexeme.never [':', ' '] [.mark ':'] := fun _ _ => rfl
  have hfield : ∀ a ∈ items, Lexeme.Spells Lexeme.isWordChar (fieldText (key a) (ds a))
      (.text (Text.escape (key a).toList) :: .mark ':' :: ls a) := by
    intro a ha
    have hkey := Lexeme.Spells.quoted (key a)
    exact (hkey.append_never hcolon).append_never (hs a ha)
  refine ⟨_, Spells.between hfield hl hk hend hne, fun outer => ?_⟩
  have hopen : ∀ ks, run ⟨.operand, outer⟩ (.mark '\x7b' :: ks) = run ⟨.key [], outer⟩ ks :=
    fun ks => rfl
  rw [List.singleton_append, hopen]
  by_cases hnil : items = []
  · subst hnil
    rfl
  · exact run_fields hr hnil [] outer

end

end Expression

end ApiTypes
