import ApiTypes.Name
import ApiTypes.Proofs.Quoted

/-!
# Lexemes

The words, quoted texts and marks that a module text is made of. Space and comments stand between
them. `Spells p cs ls` says that `cs` is read as `ls` wherever no character of `p` follows it, so
texts that are put together are read piece by piece.
-/

namespace ApiTypes

/-- A point starts a word of its own, so a dotted name is several words. The escapes of a quoted text
stay as they are written. -/
inductive Lexeme
  | word (cs : List Char)
  | text (cs : List Char)
  | mark (c : Char)
  deriving Repr, DecidableEq

namespace Lexeme

/-! ## Reading -/

def isSpace (c : Char) : Bool := c == ' ' || c == '\n' || c == '\t' || c == '\r'

def isNameChar (c : Char) : Bool :=
  c.isAlphanum || c == '_' || c == '$' || decide (128 ≤ c.toNat)

def isSign (c : Char) : Bool := c == '+' || c == '-'

def isWordChar (c : Char) : Bool := isNameChar c || c == '.' || isSign c

/-- What the reader stands in. The characters of a word or text come last first. -/
inductive Mode
  | code
  | word (cs : List Char)
  | text (cs : List Char)
  | escape (cs : List Char)
  | slash
  | lineComment
  | blockComment
  | asterisk
  deriving Repr, DecidableEq

def continues (cs : List Char) (c : Char) : Bool :=
  isNameChar c ||
    cs.getLast?.any Char.isDigit &&
      (c == '.' || isSign c && cs.head?.any (fun e => e == 'e' || e == 'E'))

def enter (c : Char) : List Lexeme × Mode :=
  if isSpace c then ([], .code)
  else if isNameChar c || c == '.' then ([], .word [c])
  else if c == '"' then ([], .text [])
  else if c == '/' then ([], .slash)
  else ([.mark c], .code)

def step : Mode → Char → List Lexeme × Mode
  | .code, c => enter c
  | .word cs, c =>
    if continues cs c then ([], .word (c :: cs)) else (.word cs.reverse :: (enter c).1, (enter c).2)
  | .text cs, c =>
    if c == '"' then ([.text cs.reverse], .code)
    else if c == '\\' then ([], .escape (c :: cs))
    else ([], .text (c :: cs))
  | .escape cs, c => ([], .text (c :: cs))
  | .slash, c =>
    if c == '*' then ([], .blockComment)
    else if c == '/' then ([], .lineComment)
    else (.mark '/' :: (enter c).1, (enter c).2)
  | .lineComment, c => ([], if c == '\n' then .code else .lineComment)
  | .blockComment, c => ([], if c == '*' then .asterisk else .blockComment)
  | .asterisk, c => ([], if c == '/' then .code else if c == '*' then .asterisk else .blockComment)

def Mode.final : Mode → List Lexeme
  | .code | .lineComment => []
  | .word cs => [.word cs.reverse]
  | .text _ | .escape _ => [.mark '"']
  | .slash => [.mark '/']
  | .blockComment | .asterisk => [.mark '*']

def scan : Mode → List Char → List Lexeme
  | m, [] => m.final
  | m, c :: cs => (step m c).1 ++ scan (step m c).2 cs

def ofText (s : String) : List Lexeme := scan .code s.toList

/-! ## Spelling -/

def Spells (p : Char → Bool) (cs : List Char) (ls : List Lexeme) : Prop :=
  ∀ rest, (∀ c ∈ rest.head?, p c = false) → scan .code (cs ++ rest) = ls ++ scan .code rest

def never (_ : Char) : Bool := false

section
variable {p q : Char → Bool} {cs ds : List Char} {ls ks : List Lexeme}

theorem Spells.scan_eq (h : Spells p cs ls) : scan .code cs = ls := by
  have := h [] (by simp)
  simpa [scan, Mode.final] using this

theorem Spells.mono (h : Spells p cs ls) (hpq : ∀ c, p c = true → q c = true) : Spells q cs ls := by
  intro rest hr
  apply h
  intro c hc
  cases hp : p c with
  | false => rfl
  | true => exact absurd (hpq c hp) (by simp [hr c hc])

theorem Spells.weaken (h : Spells never cs ls) : Spells p cs ls :=
  h.mono fun _ hc => by cases hc

theorem Spells.nil : Spells p [] [] := fun _ _ => rfl

theorem Spells.append (h : Spells p cs ls) (h' : Spells q ds ks)
    (hd : ∀ c ∈ ds.head?, p c = false) (hne : ds ≠ []) : Spells q (cs ++ ds) (ls ++ ks) := by
  intro rest hr
  rw [List.append_assoc, h, h' rest hr, List.append_assoc]
  cases ds with
  | nil => exact absurd rfl hne
  | cons d ds => exact hd

theorem Spells.append_never (h : Spells never cs ls) (h' : Spells q ds ks) :
    Spells q (cs ++ ds) (ls ++ ks) := by
  intro rest hr
  rw [List.append_assoc, h _ fun _ _ => rfl, h' rest hr, List.append_assoc]

theorem nil_intercalate {α : Type} (ls : List (List α)) : [].intercalate ls = ls.flatten := by
  induction ls with
  | nil => rfl
  | cons l ls ih =>
    cases ls with
    | nil => simp
    | cons m ls =>
      rw [List.intercalate_cons_cons, ih, List.append_nil]
      rfl

theorem Spells.intercalate {α : Type} {sep : List Char} {l : List Lexeme} {f : α → List Char}
    {g : α → List Lexeme} (hsep : Spells never sep l) (hp : ∀ c ∈ sep.head?, p c = false)
    (hne : sep ≠ []) {items : List α} (h : ∀ a ∈ items, Spells p (f a) (g a)) :
    Spells p (sep.intercalate (items.map f)) (l.intercalate (items.map g)) := by
  induction items with
  | nil => exact Spells.nil
  | cons a items ih =>
    have ha := h a List.mem_cons_self
    have ih := ih fun b hb => h b (List.mem_cons_of_mem _ hb)
    cases items with
    | nil => simpa using ha
    | cons b items =>
      simp only [List.map_cons, List.intercalate_cons_cons, List.append_assoc] at ih ⊢
      refine ha.append (hsep.append_never ih) ?_ (by simp [hne])
      cases sep with
      | nil => exact absurd rfl hne
      | cons c sep => exact hp

end

/-! ## Words -/

theorem scan_name {cs : List Char} (h : ∀ c ∈ cs, isNameChar c = true) (acc rest : List Char) :
    scan (.word acc) (cs ++ rest) = scan (.word (cs.reverse ++ acc)) rest := by
  induction cs generalizing acc with
  | nil => rfl
  | cons c cs ih =>
    have hc : continues acc c = true := by rw [continues, h c List.mem_cons_self, Bool.true_or]
    rw [List.cons_append, scan, step, if_pos hc, List.nil_append,
      ih (fun d hd => h d (List.mem_cons_of_mem _ hd)) (c :: acc)]
    simp

theorem scan_continue {acc : List Char} {c : Char} (h : continues acc c = true)
    (rest : List Char) : scan (.word acc) (c :: rest) = scan (.word (c :: acc)) rest := by
  rw [scan, step, if_pos h]
  rfl

theorem scan_word_end {acc rest : List Char} (h : ∀ c ∈ rest.head?, continues acc c = false) :
    scan (.word acc) rest = .word acc.reverse :: scan .code rest := by
  cases rest with
  | nil => rfl
  | cons c rest =>
    have hc : continues acc c = false := h c rfl
    rw [scan, step, if_neg (by simp [hc]), scan, step]
    rfl

theorem continues_eq_false {acc : List Char} {c : Char} (h : isWordChar c = false) :
    continues acc c = false := by
  simp only [isWordChar, Bool.or_eq_false_iff] at h
  simp [continues, h.1.1, h.1.2, h.2]

theorem isSpace_of_isNameChar {c : Char} (h : isNameChar c = true) : isSpace c = false := by
  cases hs : isSpace c with
  | false => rfl
  | true =>
    simp only [isSpace, Bool.or_eq_true, beq_iff_eq] at hs
    rcases hs with ((rfl | rfl) | rfl) | rfl <;> exact absurd h (by decide)

theorem isNameChar_of_isDigit {c : Char} (h : c.isDigit = true) : isNameChar c = true := by
  simp [isNameChar, Char.isAlphanum, h]

theorem scan_cons_name {c : Char} (h : isNameChar c = true) (rest : List Char) :
    scan .code (c :: rest) = scan (.word [c]) rest := by
  rw [scan, step, enter, if_neg (by simp [isSpace_of_isNameChar h]), if_pos (by simp [h])]
  rfl

def isName : List Char → Bool
  | [] => false
  | c :: cs => isNameChar c && !c.isDigit && cs.all isNameChar

theorem isNameChar_of_isName {cs : List Char} (h : isName cs = true) :
    ∀ c ∈ cs, isNameChar c = true := by
  cases cs with
  | nil => cases h
  | cons c cs =>
    simp only [isName, Bool.and_eq_true, List.all_eq_true] at h
    exact List.forall_mem_cons.mpr ⟨h.1.1, h.2⟩

theorem isNameChar_of_isBareStart {c : Char} (h : Name.isBareStart c = true) :
    isNameChar c = true ∧ c.isDigit = false := by
  simp only [Name.isBareStart, Name.isLetter, Bool.or_eq_true, beq_iff_eq] at h
  rcases h with (((((h | rfl) | rfl) | rfl) | rfl) | rfl) | rfl
  · refine ⟨by simp [isNameChar, Char.isAlphanum, h], ?_⟩
    cases hd : c.isDigit with
    | false => rfl
    | true =>
      delta Char.isAlpha Char.isUpper Char.isLower Char.isDigit at h hd
      simp only [Bool.or_eq_true, Bool.and_eq_true, decide_eq_true_eq, ge_iff_le,
        UInt32.le_iff_toNat_le] at h hd
      simp at h hd
      omega
  all_goals exact ⟨by decide, by decide⟩

theorem isName_of_isBare {name : String} (h : Name.isBare name = true) :
    isName name.toList = true := by
  unfold Name.isBare at h
  split at h
  · cases h
  · rename_i c cs heq
    rw [Bool.and_eq_true, List.all_eq_true] at h
    obtain ⟨hc, hd⟩ := isNameChar_of_isBareStart h.1
    rw [heq, isName, hc, hd, Bool.not_false, Bool.true_and, Bool.true_and, List.all_eq_true]
    intro d hmem
    have hpart := h.2 d hmem
    rw [Name.isBarePart, Bool.or_eq_true] at hpart
    rcases hpart with hpart | hpart
    · exact (isNameChar_of_isBareStart hpart).1
    · exact isNameChar_of_isDigit hpart

theorem Spells.name {cs : List Char} (h : isName cs = true) :
    Spells isNameChar cs [.word cs] := by
  cases cs with
  | nil => cases h
  | cons c cs =>
    simp only [isName, Bool.and_eq_true, Bool.not_eq_true', List.all_eq_true] at h
    obtain ⟨⟨hc, hd⟩, hcs⟩ := h
    intro rest hr
    rw [List.cons_append, scan_cons_name hc, scan_name hcs, scan_word_end]
    · simp
    · intro d hd'
      simp [continues, hr d hd', hd]

theorem Spells.member {cs : List Char} (hcs : ∀ d ∈ cs, isNameChar d = true) :
    Spells isNameChar ('.' :: cs) [.word ('.' :: cs)] := by
  intro rest hr
  show scan (.word ['.']) (cs ++ rest) = _
  rw [scan_name hcs, scan_word_end]
  · simp
  · intro d hd
    simp [continues, hr d hd]

/-! ## Numbers -/

/-- The reader is still inside a word at the end of the text. -/
def Pends (cs : List Char) : Prop := ∀ rest, scan .code (cs ++ rest) = scan (.word cs.reverse) rest

theorem Pends.digit {c : Char} (h : c.isDigit = true) : Pends [c] :=
  fun rest => scan_cons_name (isNameChar_of_isDigit h) rest

theorem Pends.snoc {cs : List Char} {c : Char} (h : Pends cs)
    (hc : continues cs.reverse c = true) : Pends (cs ++ [c]) := by
  intro rest
  rw [List.append_assoc, h, List.singleton_append, scan_continue hc]
  simp

theorem Pends.append_names {cs ds : List Char} (h : Pends cs)
    (hds : ∀ d ∈ ds, isNameChar d = true) : Pends (cs ++ ds) := by
  intro rest
  rw [List.append_assoc, h, scan_name hds]
  simp

theorem Pends.names {cs : List Char} (h : ∀ c ∈ cs, isNameChar c = true) (hne : cs ≠ []) :
    Pends cs := by
  cases cs with
  | nil => exact absurd rfl hne
  | cons c cs =>
    intro rest
    rw [List.cons_append, scan_cons_name (h c List.mem_cons_self),
      scan_name fun d hd => h d (List.mem_cons_of_mem _ hd)]
    simp

theorem Pends.spells {cs : List Char} (h : Pends cs) : Spells isWordChar cs [.word cs] := by
  intro rest hr
  rw [h, scan_word_end fun c hc => continues_eq_false (hr c hc), List.reverse_reverse]
  rfl

theorem Spells.word {cs : List Char} (h : ∀ c ∈ cs, isNameChar c = true) (hne : cs ≠ []) :
    Spells isWordChar cs [.word cs] := (Pends.names h hne).spells

theorem continues_point {cs : List Char} (h : cs.head?.any Char.isDigit = true) :
    continues cs.reverse '.' = true := by
  rw [continues, List.getLast?_reverse, h]
  rfl

theorem continues_sign {cs : List Char} {s : Char} (h : cs.head?.any Char.isDigit = true)
    (hs : isSign s = true) : continues (cs ++ ['e']).reverse s = true := by
  have hhead : (cs ++ ['e']).head?.any Char.isDigit = true := by
    cases cs with
    | nil => simp at h
    | cons c cs => exact h
  rw [continues, List.getLast?_reverse, hhead]
  simp [hs]

/-! ## Quoted texts -/

theorem scan_plain {cs : List Char} (h : ∀ c ∈ cs, c ≠ '"' ∧ c ≠ '\\') (acc rest : List Char) :
    scan (.text acc) (cs ++ rest) = scan (.text (cs.reverse ++ acc)) rest := by
  induction cs generalizing acc with
  | nil => rfl
  | cons c cs ih =>
    obtain ⟨h₁, h₂⟩ := h c List.mem_cons_self
    rw [List.cons_append, scan, step, if_neg (by simpa using h₁), if_neg (by simpa using h₂),
      List.nil_append, ih fun d hd => h d (List.mem_cons_of_mem _ hd)]
    simp

theorem scan_escapeChar (c : Char) (acc rest : List Char) :
    scan (.text acc) (Text.escapeChar c ++ rest) =
      scan (.text ((Text.escapeChar c).reverse ++ acc)) rest := by
  have h := Text.escaped_escapeChar c
  generalize Text.escapeChar c = es at h ⊢
  cases h with
  | plain hquote hslash => exact scan_plain (by simp [hquote, hslash]) acc rest
  | short _ => rfl
  | code _ =>
    show scan (.text ('u' :: '\\' :: acc)) (Text.hexDigits 4 c.toNat ++ rest) = _
    rw [scan_plain fun d hd => Text.ne_quote_of_mem_hexDigits hd]
    simp

theorem scan_escape (cs acc rest : List Char) :
    scan (.text acc) (Text.escape cs ++ rest) =
      scan (.text ((Text.escape cs).reverse ++ acc)) rest := by
  induction cs generalizing acc with
  | nil => rfl
  | cons c cs ih =>
    rw [Text.escape, List.flatMap_cons, List.append_assoc, scan_escapeChar, ← Text.escape, ih]
    simp

theorem Spells.quoted (s : String) :
    Spells never (Text.quoted s).toList [.text (Text.escape s.toList)] := by
  intro rest _
  rw [Text.quoted, String.toList_ofList, List.cons_append, List.append_assoc]
  show scan (.text []) (Text.escape s.toList ++ ('"' :: rest)) = _
  rw [scan_escape, scan, step, if_pos (by decide)]
  simp

end Lexeme

end ApiTypes
