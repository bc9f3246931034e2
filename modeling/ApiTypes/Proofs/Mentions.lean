import ApiTypes.Proofs.Comment
import ApiTypes.Proofs.Validator

/-!
# Mentions of components

A text mentions a member of the component namespace where its lexemes are the two words of the
namespace and a name behind a point. `Resolved D p s` says that `D` holds of all that the text `s`
mentions, wherever no character of `p` follows it, so texts that are put together are looked at piece
by piece.
-/

namespace ApiTypes

namespace Lexeme

/-! ## Lexemes that mention -/

/-- The second word of the component namespace. -/
def scopeEnd : Lexeme := .word ".Schemas".toList

def mention? : List Lexeme → Option String
  | .word a :: .word b :: .word ('.' :: name) :: _ =>
    if a = "Components".toList ∧ b = ".Schemas".toList then some (String.ofList name) else none
  | _ => none

def mentions : List Lexeme → List String
  | [] => []
  | l :: ls => (mention? (l :: ls)).toList ++ mentions ls

theorem mention?_eq_none {l : Lexeme} {ls : List Lexeme}
    (h : l = .word "Components".toList → ls.head? ≠ some scopeEnd) : mention? (l :: ls) = none := by
  unfold mention?
  split
  · rename_i heq
    cases heq
    split
    · rename_i hscope
      obtain ⟨rfl, rfl⟩ := hscope
      exact absurd rfl (h rfl)
    · rfl
  · rfl

/-- All that is mentioned as far as the lexemes reach is in `D`. The second word of the namespace may
neither come first nor follow, so no mention begins in one text and ends in another. -/
structure Sealed (D : String → Prop) (ls : List Lexeme) : Prop where
  head : ls.head? ≠ some scopeEnd
  inside : ∀ rest : List Lexeme, rest.head? ≠ some scopeEnd →
    ∀ n ∈ mentions (ls ++ rest), D n ∨ n ∈ mentions rest

section
variable {D E : String → Prop} {ls ks : List Lexeme}

theorem Sealed.imp (h : Sealed D ls) (himp : ∀ n, D n → E n) : Sealed E ls where
  head := h.head
  inside rest hrest n hn := (h.inside rest hrest n hn).imp_left (himp n)

theorem Sealed.nil : Sealed D [] where
  head := by simp
  inside _ _ _ hn := .inr hn

theorem Sealed.append (hls : Sealed D ls) (hks : Sealed D ks) : Sealed D (ls ++ ks) where
  head := by
    cases ls with
    | nil => exact hks.head
    | cons l ls => exact hls.head
  inside rest hrest n hn := by
    have hhead : (ks ++ rest).head? ≠ some scopeEnd := by
      cases ks with
      | nil => exact hrest
      | cons k ks => exact hks.head
    rw [List.append_assoc] at hn
    rcases hls.inside _ hhead n hn with hn | hn
    · exact .inl hn
    · exact hks.inside rest hrest n hn

theorem Sealed.singleton {l : Lexeme} (h : l ≠ scopeEnd) : Sealed D [l] where
  head := by simpa using h
  inside rest hrest n hn := by
    rw [List.singleton_append, mentions, mention?_eq_none fun _ => hrest] at hn
    exact .inr hn

theorem Sealed.of_forall (h : ∀ l ∈ ls, l ≠ scopeEnd) : Sealed D ls := by
  induction ls with
  | nil => exact .nil
  | cons l ls ih =>
    obtain ⟨hl, hls⟩ := List.forall_mem_cons.mp h
    exact (Sealed.singleton hl).append (ih hls)

theorem Sealed.of_ne (hhead : ls.head? ≠ some scopeEnd)
    (h : ∀ l ∈ ls, l ≠ .word "Components".toList) : Sealed D ls where
  head := hhead
  inside rest _ n hn := by
    clear hhead
    induction ls with
    | nil => exact .inr hn
    | cons l ls ih =>
      obtain ⟨hl, hls⟩ := List.forall_mem_cons.mp h
      rw [List.cons_append, mentions, mention?_eq_none fun hne => absurd hne hl] at hn
      exact ih hls hn

theorem Sealed.member {n : String} (h : D n) :
    Sealed D [.word "Components".toList, scopeEnd, .word ('.' :: n.toList)] where
  head := by simp [scopeEnd]
  inside rest _ m hm := by
    have hfirst : mention? (.word "Components".toList :: scopeEnd :: .word ('.' :: n.toList) :: rest) =
        some n := by
      rw [scopeEnd, mention?, if_pos ⟨rfl, rfl⟩, String.ofList_toList]
    have hsecond : mention? (scopeEnd :: .word ('.' :: n.toList) :: rest) = none :=
      mention?_eq_none fun heq => by simp [scopeEnd] at heq
    have hthird : mention? (.word ('.' :: n.toList) :: rest) = none :=
      mention?_eq_none fun heq => by simp at heq
    rw [List.cons_append, List.cons_append, List.singleton_append, mentions, mentions, mentions,
      hfirst, hsecond, hthird] at hm
    rcases List.mem_cons.mp hm with rfl | hm
    · exact .inl h
    · exact .inr hm

end

/-! ## Fixed texts -/

def scanTo : Mode → List Char → List Lexeme × Mode
  | m, [] => ([], m)
  | m, c :: cs =>
    let behind := scanTo (step m c).2 cs
    ((step m c).1 ++ behind.1, behind.2)

theorem scan_append (m : Mode) (cs rest : List Char) :
    scan m (cs ++ rest) = (scanTo m cs).1 ++ scan (scanTo m cs).2 rest := by
  induction cs generalizing m with
  | nil => rfl
  | cons c cs ih => rw [List.cons_append, scan, ih, scanTo, List.append_assoc]

/-- A text that the reader comes out of, without the second word of the namespace. -/
def isInert (s : String) : Bool :=
  match scanTo .code s.toList with
  | (ls, .code) => ls.all (· != scopeEnd)
  | _ => false

def isInertWord (s : String) : Bool :=
  match scanTo .code s.toList with
  | (ls, .word cs) => ls.all (· != scopeEnd) && .word cs.reverse != scopeEnd
  | _ => false

end Lexeme

open Lexeme (Spells Sealed never isWordChar isNameChar)

/-! ## Texts -/

/-- Wherever no character of `p` follows, the text mentions nothing but what is in `D`. -/
def Resolved (D : String → Prop) (p : Char → Bool) (s : String) : Prop :=
  ∃ ls, Spells p s.toList ls ∧ Sealed D ls

namespace Resolved

variable {D E : String → Prop} {p q : Char → Bool} {s t : String}

theorem mentions (h : Resolved D p s) : ∀ n ∈ Lexeme.mentions (Lexeme.ofText s), D n := by
  obtain ⟨ls, hspells, hsealed⟩ := h
  intro n hn
  rw [Lexeme.ofText, hspells.scan_eq, ← List.append_nil ls] at hn
  exact (hsealed.inside [] (by simp) n hn).elim id fun hnone => absurd hnone List.not_mem_nil

theorem imp (h : Resolved D p s) (himp : ∀ n, D n → E n) : Resolved E p s := by
  obtain ⟨ls, hspells, hsealed⟩ := h
  exact ⟨ls, hspells, hsealed.imp himp⟩

theorem mono (h : Resolved D p s) (hpq : ∀ c, p c = true → q c = true) : Resolved D q s := by
  obtain ⟨ls, hspells, hsealed⟩ := h
  exact ⟨ls, hspells.mono hpq, hsealed⟩

theorem weaken (h : Resolved D never s) : Resolved D p s := h.mono fun _ hc => by cases hc

theorem word_of_name (h : Resolved D isNameChar s) : Resolved D isWordChar s :=
  h.mono fun c hc => by simp [isWordChar, hc]

theorem empty : Resolved D p "" := ⟨[], .nil, .nil⟩

theorem append (hs : Resolved D never s) (ht : Resolved D p t) : Resolved D p (s ++ t) := by
  obtain ⟨ls, hls, hsealed⟩ := hs
  obtain ⟨ks, hks, hsealed'⟩ := ht
  refine ⟨ls ++ ks, ?_, hsealed.append hsealed'⟩
  rw [String.toList_append]
  exact hls.append_never hks

theorem before (hs : Resolved D p s) (ht : Resolved D q t)
    (hp : t.toList.head?.any (fun c => !p c) = true) : Resolved D q (s ++ t) := by
  obtain ⟨ls, hls, hsealed⟩ := hs
  obtain ⟨ks, hks, hsealed'⟩ := ht
  refine ⟨ls ++ ks, ?_, hsealed.append hsealed'⟩
  rw [String.toList_append]
  refine hls.append hks (fun c hc => ?_) fun hnil => ?_
  · rw [Option.mem_def.mp hc] at hp
    simpa using hp
  · rw [hnil] at hp
    cases hp

theorem fixed (h : Lexeme.isInert s = true) : Resolved D never s := by
  unfold Lexeme.isInert at h
  split at h
  · rename_i ls hscan
    refine ⟨ls, fun rest _ => ?_, .of_forall fun l hl => ?_⟩
    · rw [Lexeme.scan_append, hscan]
    · simpa using List.all_eq_true.mp h l hl
  · cases h

theorem fixedWord (h : Lexeme.isInertWord s = true) : Resolved D isWordChar s := by
  unfold Lexeme.isInertWord at h
  split at h
  · rename_i ls cs hscan
    rw [Bool.and_eq_true] at h
    refine ⟨ls ++ [.word cs.reverse], fun rest hr => ?_, .append (.of_forall fun l hl => ?_) ?_⟩
    · rw [Lexeme.scan_append, hscan, Lexeme.scan_word_end fun c hc =>
        Lexeme.continues_eq_false (hr c hc), List.append_assoc]
      rfl
    · simpa using List.all_eq_true.mp h.1 l hl
    · exact .singleton (by simpa using h.2)
  · cases h

theorem word (h : ∀ c ∈ s.toList, isNameChar c = true) (hne : s ≠ "") :
    Resolved D isWordChar s := by
  have hnil : s.toList ≠ [] := mt String.toList_eq_nil_iff.mp hne
  refine ⟨_, .word h hnil, .singleton ?_⟩
  intro heq
  rw [Lexeme.word.inj heq] at h
  exact absurd (h '.' (by decide)) (by decide)

theorem quoted (s : String) : Resolved D never (Text.quoted s) :=
  ⟨_, .quoted s, .singleton fun h => by cases h⟩

theorem comment (entries : List String) :
    Resolved D never (Prose.blockComment entries Prose.commentLead) :=
  ⟨[], .comment entries, .nil⟩

theorem intercalate {sep : String} {texts : List String} (hsep : Resolved D never sep)
    (hp : sep.toList.head?.any (fun c => !p c) = true) (h : ∀ s ∈ texts, Resolved D p s) :
    Resolved D p (String.intercalate sep texts) := by
  induction texts with
  | nil => exact .empty
  | cons s texts ih =>
    obtain ⟨hs, htexts⟩ := List.forall_mem_cons.mp h
    cases texts with
    | nil => rwa [String.intercalate_singleton]
    | cons t texts =>
      rw [String.intercalate_cons_cons]
      exact (hs.before hsep hp).append (ih htexts)

theorem between {opening closing : String} (hs : Resolved D p s)
    (hopen : Lexeme.isInert opening = true) (hclose : Lexeme.isInert closing = true)
    (hp : closing.toList.head?.any (fun c => !p c) = true) :
    Resolved D never (opening ++ s ++ closing) :=
  ((fixed hopen).append hs).before (fixed hclose) hp

theorem path {name : String} (h : ∀ c ∈ name.toList, isNameChar c = true) (hname : D name) :
    Resolved D isNameChar (componentPath name) := by
  have hfirst : Spells isNameChar "Components".toList [.word "Components".toList] := .name rfl
  have hscope : Spells isNameChar ".Schemas".toList [Lexeme.scopeEnd] :=
    .member (List.all_eq_true.mp rfl)
  have hboth := hfirst.append hscope (by intro c hc; cases hc; decide) (by simp)
  have hall := hboth.append (.member h) (by intro c hc; cases hc; decide) (by simp)
  refine ⟨_, ?_, .member hname⟩
  rw [componentPath_toList]
  exact hall

theorem propertyKey (name : String) : Resolved D isWordChar (Name.propertyKey name) := by
  unfold Name.propertyKey
  split
  · rename_i hbare
    have hname := Lexeme.isName_of_isBare hbare
    refine word (Lexeme.isNameChar_of_isName hname) ?_
    rintro rfl
    cases hname
  · exact (quoted name).weaken

/-! ### Literals -/

theorem number {cs : List Char} (h : Number.Form cs) :
    Resolved D isWordChar (String.ofList cs) := by
  refine ⟨[.word cs], ?_, .singleton ?_⟩
  · rw [String.toList_ofList]
    exact h.spells
  · intro heq
    have hhead := h.head
    rw [Lexeme.word.inj heq] at hhead
    exact absurd hhead (by decide)

theorem signed (h : Number.Signed s.toList) : Resolved D isWordChar s := by
  have hs : s = String.ofList s.toList := String.ofList_toList.symm
  generalize s.toList = cs at h hs
  subst hs
  cases h with
  | positive h => exact number h
  | @negative cs h =>
    have hminus : Resolved D never "-" := fixed rfl
    have := hminus.append (number h)
    rwa [← String.ofList_append] at this

end Resolved

theorem Scalar.resolved_json {D : String → Prop} (s : Scalar) : Resolved D isWordChar s.json := by
  cases s with
  | null => exact .fixedWord rfl
  | bool b =>
    cases b with
    | false => exact .fixedWord rfl
    | true => exact .fixedWord rfl
  | int n => exact .signed (Number.signed_int n)
  | float x =>
    cases h : x.isInf with
    | true =>
      show Resolved D isWordChar (Decimal.floatText "Infinity" x)
      rcases Number.floatText_of_isInf h "Infinity" with ht | ht
      · rw [ht]
        exact .fixedWord rfl
      · rw [ht]
        exact .fixedWord rfl
    | false => exact .signed (Number.signed_float h _)
  | nan origin =>
    show Resolved D isWordChar "NaN"
    exact .fixedWord rfl
  | text s => exact (Resolved.quoted s).weaken
  | date d => exact (Resolved.quoted _).weaken
  | dateTime t => exact (Resolved.quoted _).weaken
  | bytes bs => exact (Resolved.quoted _).weaken

theorem Value.resolved_json {D : String → Prop} (v : Value) : Resolved D isWordChar v.json := by
  have hcomma : Resolved D never ", " := .fixed rfl
  have hitems : ∀ items : List Value, (∀ v ∈ items, Resolved D isWordChar v.json) →
      Resolved D isWordChar (bracketed "[" "]" (jsonItems items)) := by
    intro items ih
    have hinside : Resolved D isWordChar (String.intercalate ", " (jsonItems items)) := by
      rw [jsonItems_eq_map]
      exact hcomma.intercalate rfl (List.forall_mem_map.mpr ih)
    exact (hinside.between rfl rfl rfl).weaken
  induction v with
  | scalar s => exact s.resolved_json
  | seq items ih => exact hitems items ih
  | tuple items ih => exact hitems items ih
  | map entries ih =>
    have hcolon : Resolved D never ": " := .fixed rfl
    have hinside : Resolved D isWordChar (String.intercalate ", " (jsonEntries entries)) := by
      rw [jsonEntries_eq_map]
      refine hcomma.intercalate rfl (List.forall_mem_map.mpr fun e he => ?_)
      rw [Scalar.jsonKey_eq]
      exact ((Resolved.quoted _).append hcolon).append (ih e he)
    exact (hinside.between rfl rfl rfl).weaken
  | set members => exact (Resolved.quoted _).weaken
  | link n =>
    show Resolved D isWordChar "null"
    exact .fixedWord rfl

end ApiTypes
