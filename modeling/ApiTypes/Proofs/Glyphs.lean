import ApiTypes.Proofs.Brackets
import ApiTypes.Proofs.Comment

/-!
# Literals and comments of a module

`Lexed gs quote` says which characters of a text stand in code and which ones in literals and
comments, by the forms of these and not by a reader with modes. Every text can be told apart so.
-/

namespace ApiTypes.Delimiter

open Prose (StaysOpen)

inductive Role
  | code
  /-- In a literal or a comment, the marks at its ends included. -/
  | inert
  /-- In a literal, behind a backslash. -/
  | escaped
  deriving Repr, DecidableEq

abbrev Glyph := Char × Role

def text (gs : List Glyph) : List Char := gs.map (·.1)

def inert (cs : List Char) : List Glyph := cs.map fun c => (c, .inert)

@[simp] theorem text_nil : text [] = [] := rfl

@[simp] theorem text_cons (g : Glyph) (gs : List Glyph) : text (g :: gs) = g.1 :: text gs := rfl

@[simp] theorem text_append (gs hs : List Glyph) : text (gs ++ hs) = text gs ++ text hs :=
  List.map_append

@[simp] theorem text_inert (cs : List Char) : text (inert cs) = cs := by
  simp [text, inert, Function.comp_def]

inductive InLiteral (quote : Char) : List Glyph → Prop
  | nil : InLiteral quote []
  | plain {c gs} : c ≠ quote → c ≠ '\\' → InLiteral quote gs → InLiteral quote ((c, .inert) :: gs)
  | escape {c gs} : InLiteral quote gs →
      InLiteral quote (('\\', .inert) :: (c, .escaped) :: gs)

def OpensComment (c : Char) (behind : List Char) : Prop :=
  c = '/' ∧ (behind.head? = some '/' ∨ behind.head? = some '*')

instance (c : Char) (behind : List Char) : Decidable (OpensComment c behind) :=
  inferInstanceAs (Decidable (_ ∧ _))

/-- The characters of a text, and the quote of a literal that is open at its end. A line comment
goes up to a line feed or the end, a block comment up to its first closing mark or the end. -/
inductive Lexed : List Glyph → Option Char → Prop
  | nil : Lexed [] none
  | code {c gs quote?} : isQuote c = false → ¬ OpensComment c (text gs) → Lexed gs quote? →
      Lexed ((c, .code) :: gs) quote?
  | literal {quote body gs quote?} : isQuote quote = true → InLiteral quote body →
      Lexed gs quote? → Lexed ((quote, .inert) :: (body ++ (quote, .inert) :: gs)) quote?
  | openLiteral {quote body} : isQuote quote = true → InLiteral quote body →
      Lexed ((quote, .inert) :: body) (some quote)
  | brokenLiteral {quote body} : isQuote quote = true → InLiteral quote body →
      Lexed ((quote, .inert) :: (body ++ inert ['\\'])) (some quote)
  | lineComment {cs gs quote?} : '\n' ∉ cs → Lexed gs quote? →
      Lexed (inert ('/' :: '/' :: (cs ++ ['\n'])) ++ gs) quote?
  | openLineComment {cs} : '\n' ∉ cs → Lexed (inert ('/' :: '/' :: cs)) none
  | blockComment {cs gs quote?} : StaysOpen cs → Lexed gs quote? →
      Lexed (inert ('/' :: '*' :: (cs ++ ['*', '/'])) ++ gs) quote?
  | openBlockComment {cs} : StaysOpen cs → Lexed (inert ('/' :: '*' :: cs)) none

/-! ## Every text -/

theorem exists_inLiteral (quote : Char) : ∀ cs : List Char,
    (∃ body rest, InLiteral quote body ∧ cs = text body ++ quote :: rest) ∨
      ∃ body, InLiteral quote body ∧ (cs = text body ∨ cs = text body ++ ['\\'])
  | [] => .inr ⟨[], .nil, .inl rfl⟩
  | [c] => by
    by_cases hquote : c = quote
    · exact .inl ⟨[], [], .nil, by rw [hquote]; rfl⟩
    by_cases hslash : c = '\\'
    · exact .inr ⟨[], .nil, .inr (by rw [hslash]; rfl)⟩
    · exact .inr ⟨[(c, .inert)], .plain hquote hslash .nil, .inl rfl⟩
  | c :: d :: cs => by
    by_cases hquote : c = quote
    · exact .inl ⟨[], d :: cs, .nil, by rw [hquote]; rfl⟩
    by_cases hslash : c = '\\'
    · subst hslash
      rcases exists_inLiteral quote cs with ⟨body, rest, h, rfl⟩ | ⟨body, h, hcs⟩
      · exact .inl ⟨_, rest, .escape (c := d) h, rfl⟩
      · refine .inr ⟨_, .escape (c := d) h, ?_⟩
        rcases hcs with rfl | rfl
        · exact .inl rfl
        · exact .inr rfl
    · rcases exists_inLiteral quote (d :: cs) with ⟨body, rest, h, hcs⟩ | ⟨body, h, hcs⟩
      · exact .inl ⟨_, rest, .plain hquote hslash h, by rw [hcs]; rfl⟩
      · refine .inr ⟨_, .plain hquote hslash h, ?_⟩
        rcases hcs with hcs | hcs
        · exact .inl (by rw [hcs]; rfl)
        · exact .inr (by rw [hcs]; rfl)

theorem exists_lineComment (cs : List Char) :
    (∃ body rest, '\n' ∉ body ∧ cs = body ++ '\n' :: rest) ∨ '\n' ∉ cs := by
  by_cases h : '\n' ∈ cs
  · obtain ⟨body, rest, rfl, hbody⟩ := List.eq_append_cons_of_mem h
    exact .inl ⟨body, rest, hbody, rfl⟩
  · exact .inr h

theorem exists_staysOpen (cs : List Char) :
    (∃ body rest, StaysOpen body ∧ cs = body ++ '*' :: '/' :: rest) ∨ StaysOpen cs := by
  induction cs with
  | nil => exact .inr Prose.staysOpen_nil
  | cons c cs ih =>
    by_cases hmark : c = '*' ∧ cs.head? = some '/'
    · obtain ⟨rfl, hslash⟩ := hmark
      obtain ⟨rest, rfl⟩ := List.head?_eq_some_iff.mp hslash
      exact .inl ⟨[], rest, Prose.staysOpen_nil, rfl⟩
    rcases ih with ⟨body, rest, h, rfl⟩ | h
    · refine .inl ⟨c :: body, rest, Prose.staysOpen_cons.mpr ⟨?_, h⟩, rfl⟩
      rintro ⟨rfl, hslash⟩
      refine hmark ⟨rfl, ?_⟩
      rw [List.head?_append, hslash]
      rfl
    · exact .inr (Prose.staysOpen_cons.mpr ⟨hmark, h⟩)

/-- Any text, from the front: what its first character begins is told apart, then the rest. -/
theorem exists_lexed (cs : List Char) : ∃ gs quote?, Lexed gs quote? ∧ text gs = cs := by
  -- by length, since a literal or a comment takes more than one character
  induction hlength : cs.length using Nat.strongRecOn generalizing cs with
  | ind n ih =>
    have hrest : ∀ rest : List Char, rest.length < cs.length →
        ∃ gs quote?, Lexed gs quote? ∧ text gs = rest := fun _ h => ih _ (hlength ▸ h) _ rfl
    cases cs with
    | nil => exact ⟨[], none, .nil, rfl⟩
    | cons c cs =>
      by_cases hquote : isQuote c = true
      -- a literal closes, stays open or breaks off in an escape
      · rcases exists_inLiteral c cs with ⟨body, rest, h, rfl⟩ | ⟨body, h, rfl | rfl⟩
        · obtain ⟨gs, quote?, hgs, rfl⟩ := hrest rest (by simp; omega)
          exact ⟨_, quote?, .literal hquote h hgs, by simp⟩
        · exact ⟨_, some c, .openLiteral hquote h, rfl⟩
        · exact ⟨_, some c, .brokenLiteral hquote h, by simp⟩
      by_cases hcomment : OpensComment c cs
      · obtain ⟨rfl, hslash | hstar⟩ := hcomment
        · obtain ⟨cs, rfl⟩ := List.head?_eq_some_iff.mp hslash
          rcases exists_lineComment cs with ⟨body, rest, h, rfl⟩ | h
          · obtain ⟨gs, quote?, hgs, rfl⟩ := hrest rest (by simp; omega)
            exact ⟨_, quote?, .lineComment h hgs, by simp⟩
          · exact ⟨_, none, .openLineComment h, by simp⟩
        · obtain ⟨cs, rfl⟩ := List.head?_eq_some_iff.mp hstar
          rcases exists_staysOpen cs with ⟨body, rest, h, rfl⟩ | h
          · obtain ⟨gs, quote?, hgs, rfl⟩ := hrest rest (by simp; omega)
            exact ⟨_, quote?, .blockComment h hgs, by simp⟩
          · exact ⟨_, none, .openBlockComment h, by simp⟩
      · obtain ⟨gs, quote?, hgs, rfl⟩ := hrest cs (by simp)
        exact ⟨_, quote?, .code (by simpa using hquote) hcomment hgs, rfl⟩

/-! ## Brackets and lines -/

def bracketsFrom (place : Nat) : List Glyph → List Bracket
  | [] => []
  | (c, role) :: gs =>
    if role = .code ∧ isBracket c = true then ⟨c, place⟩ :: bracketsFrom (place + 1) gs
    else bracketsFrom (place + 1) gs

def brackets (gs : List Glyph) : List Bracket := bracketsFrom 0 gs

theorem bracketsFrom_append (place : Nat) (gs hs : List Glyph) :
    bracketsFrom place (gs ++ hs) = bracketsFrom place gs ++ bracketsFrom (place + gs.length) hs := by
  induction gs generalizing place with
  | nil => rfl
  | cons g gs ih =>
    obtain ⟨c, role⟩ := g
    rw [List.cons_append, bracketsFrom, bracketsFrom, ih, List.length_cons, Nat.add_assoc,
      Nat.add_comm 1]
    split <;> rfl

theorem brackets_concat (gs : List Glyph) (c : Char) (role : Role) :
    brackets (gs ++ [(c, role)]) =
      brackets gs ++ if role = .code ∧ isBracket c = true then [⟨c, gs.length⟩] else [] := by
  rw [brackets, bracketsFrom_append, Nat.zero_add]
  rfl

theorem getElem?_of_mem_bracketsFrom {place : Nat} {gs : List Glyph} {b : Bracket}
    (h : b ∈ bracketsFrom place gs) : place ≤ b.place ∧ gs[b.place - place]? = some (b.char, .code) ∧
      isBracket b.char = true := by
  induction gs generalizing place with
  | nil => cases h
  | cons g gs ih =>
    obtain ⟨c, role⟩ := g
    have htail : b ∈ bracketsFrom (place + 1) gs → place ≤ b.place ∧
        ((c, role) :: gs)[b.place - place]? = some (b.char, .code) ∧ isBracket b.char = true := by
      intro h
      obtain ⟨hplace, hget, hb⟩ := ih h
      have hsub : b.place - place = b.place - (place + 1) + 1 := by omega
      rw [hsub, List.getElem?_cons_succ]
      exact ⟨by omega, hget, hb⟩
    rw [bracketsFrom] at h
    split at h
    · rename_i hcode
      rcases List.mem_cons.mp h with rfl | h
      · simp [hcode.1, hcode.2]
      · exact htail h
    · exact htail h

/-- A line feed that ends a line. -/
def endsLine (g : Glyph) : Bool := g.1 == '\n' && g.2 != .escaped

def lineAt (gs : List Glyph) (place : Nat) : Nat := 1 + (gs.take place).countP endsLine

end ApiTypes.Delimiter
