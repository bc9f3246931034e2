import Mathlib.Data.List.Infix
import ApiTypes.Prose
import ApiTypes.Proofs.Lexeme

/-!
# Comments

A block comment ends at the first closing mark in it. A text without one may stand in a comment, and
`Prose.guardClose` takes all of them out of a text.
-/

namespace ApiTypes

namespace Prose

/-! ## Closing marks -/

/-- The text of a comment does not end the comment. -/
def StaysOpen (cs : List Char) : Prop := ¬ ['*', '/'] <:+: cs

theorem staysOpen_nil : StaysOpen [] := by
  intro h
  cases List.infix_nil.mp h

theorem staysOpen_cons {c : Char} {cs : List Char} :
    StaysOpen (c :: cs) ↔ ¬ (c = '*' ∧ cs.head? = some '/') ∧ StaysOpen cs := by
  rw [StaysOpen, List.infix_cons_iff, not_or]
  refine and_congr_left' (not_congr ?_)
  cases cs with
  | nil => simp
  | cons d cs => simp [List.cons_prefix_cons, eq_comm]

theorem staysOpen_append_cons {c : Char} (hstar : c ≠ '*') (hslash : c ≠ '/')
    {cs ds : List Char} : StaysOpen (cs ++ c :: ds) ↔ StaysOpen cs ∧ StaysOpen ds := by
  induction cs with
  | nil => simp [staysOpen_cons, hstar, staysOpen_nil]
  | cons d cs ih =>
    have hhead : (cs ++ c :: ds).head? = some '/' ↔ cs.head? = some '/' := by
      cases cs with
      | nil => simp [hslash]
      | cons => simp
    rw [List.cons_append, staysOpen_cons, staysOpen_cons, ih, hhead, and_assoc]

theorem head?_guardClose (cs : List Char) : (guardClose cs).head? = cs.head? := by
  unfold guardClose
  split <;> rfl

theorem staysOpen_guardClose (cs : List Char) : StaysOpen (guardClose cs) := by
  fun_induction guardClose cs with
  | case1 => exact staysOpen_nil
  | case2 cs ih =>
    rw [staysOpen_cons, staysOpen_cons, staysOpen_cons]
    simpa using ih
  | case3 c cs hne ih =>
    rw [staysOpen_cons, head?_guardClose]
    refine ⟨?_, ih⟩
    rintro ⟨rfl, hhead⟩
    obtain ⟨ds, rfl⟩ := List.head?_eq_some_iff.mp hhead
    exact hne ds rfl rfl

/-! ## Lines -/

theorem staysOpen_append_of_ne_star {cs ds : List Char} (h : ∀ c ∈ cs, c ≠ '*') :
    StaysOpen (cs ++ ds) ↔ StaysOpen ds := by
  induction cs with
  | nil => simp
  | cons c cs ih =>
    obtain ⟨hc, hcs⟩ := List.forall_mem_cons.mp h
    rw [List.cons_append, staysOpen_cons, ih hcs]
    simp [hc]

theorem staysOpen_separated {sep cs ds : List Char} (hne : sep ≠ [])
    (hsep : ∀ c ∈ sep, c ≠ '*' ∧ c ≠ '/') :
    StaysOpen (cs ++ sep ++ ds) ↔ StaysOpen cs ∧ StaysOpen ds := by
  cases sep with
  | nil => exact absurd rfl hne
  | cons c sep =>
    obtain ⟨⟨hstar, hslash⟩, hsep⟩ := List.forall_mem_cons.mp hsep
    rw [List.append_assoc, List.cons_append, staysOpen_append_cons hstar hslash,
      staysOpen_append_of_ne_star fun d hd => (hsep d hd).1]

theorem staysOpen_intercalate {sep : List Char} (hne : sep ≠ [])
    (hsep : ∀ c ∈ sep, c ≠ '*' ∧ c ≠ '/') {ls : List (List Char)} :
    StaysOpen (sep.intercalate ls) ↔ ∀ l ∈ ls, StaysOpen l := by
  induction ls with
  | nil => simpa using staysOpen_nil
  | cons l ls ih =>
    cases ls with
    | nil => simp
    | cons m ls =>
      rw [List.intercalate_cons_cons, staysOpen_separated hne hsep, ih]
      exact List.forall_mem_cons.symm

theorem intercalate_append_cons (sep cs l : List Char) (ls : List (List Char)) :
    sep.intercalate ((cs ++ l) :: ls) = cs ++ sep.intercalate (l :: ls) := by
  cases ls with
  | nil => simp
  | cons m ls => simp [List.intercalate_cons_cons]

theorem intercalate_concat_append (sep l cs : List Char) (ls : List (List Char)) :
    sep.intercalate (ls ++ [l ++ cs]) = sep.intercalate (ls ++ [l]) ++ cs := by
  induction ls with
  | nil => simp
  | cons m ls ih =>
    cases ls with
    | nil => simp [List.intercalate_cons_cons]
    | cons k ls =>
      simp only [List.cons_append, List.intercalate_cons_cons, List.append_assoc] at ih ⊢
      rw [ih]

def commentBody (entries : List String) : List Char :=
  ['\n'].intercalate (['*'] :: (commentLines commentLead entries).map String.toList ++ [[' ']])

theorem toList_blockComment (entries : List String) :
    (blockComment entries commentLead).toList =
      '/' :: '*' :: (commentBody entries ++ ['*', '/']) := by
  have hopen := intercalate_append_cons ['\n'] ['/', '*'] ['*']
    ((commentLines commentLead entries).map String.toList ++ [[' ']])
  have hclose := intercalate_concat_append ['\n'] [' '] ['*', '/']
    (['/', '*', '*'] :: (commentLines commentLead entries).map String.toList)
  rw [blockComment, String.toList_intercalate, List.map_append, List.map_cons]
  show ['\n'].intercalate (['/', '*', '*'] :: _ ++ [[' '] ++ ['*', '/']]) = _
  rw [hclose]
  exact congrArg (· ++ ['*', '/']) hopen

theorem staysOpen_commentBody (entries : List String) : StaysOpen (commentBody entries) := by
  refine (staysOpen_intercalate (by simp) (by simp)).mpr fun l hl => ?_
  rw [List.mem_append, List.mem_cons, List.mem_map] at hl
  rcases hl with (rfl | ⟨line, hline, rfl⟩) | hl
  · rw [staysOpen_cons]
    simpa using staysOpen_nil
  · obtain ⟨entry, _, hline⟩ := List.mem_flatMap.mp hline
    obtain ⟨piece, _, rfl⟩ := List.mem_map.mp hline
    rw [String.toList_append, String.toList_ofList]
    show StaysOpen (' ' :: '*' :: ' ' :: guardClose piece)
    rw [staysOpen_cons, staysOpen_cons, staysOpen_cons]
    simpa using staysOpen_guardClose piece
  · rw [List.mem_singleton.mp hl, staysOpen_cons]
    simpa using staysOpen_nil

end Prose

namespace Lexeme

theorem scan_blockComment {cs : List Char} (h : Prose.StaysOpen cs) (rest : List Char) :
    scan .blockComment (cs ++ '*' :: '/' :: rest) = scan .code rest := by
  -- both modes at once: behind an asterisk a slash would close
  have hall : (Prose.StaysOpen cs →
        scan .blockComment (cs ++ '*' :: '/' :: rest) = scan .code rest) ∧
      (Prose.StaysOpen ('*' :: cs) →
        scan .asterisk (cs ++ '*' :: '/' :: rest) = scan .code rest) := by
    clear h
    induction cs with
    | nil => exact ⟨fun _ => rfl, fun _ => rfl⟩
    | cons c cs ih =>
      constructor
      · intro h
        rw [List.cons_append, scan, step]
        by_cases hc : c = '*'
        · subst hc
          exact ih.2 h
        · rw [if_neg (by simpa using hc)]
          exact ih.1 (Prose.staysOpen_cons.mp h).2
      · intro h
        have hc : c ≠ '/' := fun hc => (Prose.staysOpen_cons.mp h).1 ⟨rfl, by simp [hc]⟩
        have h := (Prose.staysOpen_cons.mp h).2
        rw [List.cons_append, scan, step, if_neg (by simpa using hc)]
        by_cases hc : c = '*'
        · subst hc
          exact ih.2 h
        · rw [if_neg (by simpa using hc)]
          exact ih.1 (Prose.staysOpen_cons.mp h).2
  exact hall.1 h

theorem Spells.comment (entries : List String) :
    Spells never (Prose.blockComment entries Prose.commentLead).toList [] := by
  intro rest _
  rw [Prose.toList_blockComment]
  show scan .blockComment (Prose.commentBody entries ++ ['*', '/'] ++ rest) = _
  rw [List.append_assoc]
  exact scan_blockComment (Prose.staysOpen_commentBody entries) rest

end Lexeme

end ApiTypes
