import Mathlib.Data.List.Forall2
import ApiTypes.Proofs.Comment

/-!
# Block comments

A comment of many lines ends at its only closing mark. Between its first and its last line it has one line
for each line of each entry, in which every closing mark of the entry has a backslash.
-/

namespace ApiTypes

namespace Text

theorem pieces_intercalate {p : Char → Bool} {c : Char} (hc : p c = true) {ls : List (List Char)}
    (hne : ls ≠ []) (h : ∀ l ∈ ls, ∀ d ∈ l, p d = false) : pieces p ([c].intercalate ls) = ls := by
  induction ls with
  | nil => exact absurd rfl hne
  | cons l ls ih =>
    obtain ⟨hl, hls⟩ := List.forall_mem_cons.mp h
    cases ls with
    | nil => rw [List.intercalate_singleton, pieces_of_forall hl]
    | cons m ls =>
      rw [List.intercalate_cons_cons, List.append_assoc, List.singleton_append, pieces_append hl hc,
        ih (List.cons_ne_nil m ls) hls]

end Text

namespace Prose

/-! ## Places of closing marks -/

def closingPlaces (cs : List Char) : List Nat :=
  (List.range cs.length).filter fun n => ['*', '/'].isPrefixOf (cs.drop n)

theorem closingPlaces_cons (c : Char) (cs : List Char) : closingPlaces (c :: cs) =
    (if c = '*' ∧ cs.head? = some '/' then [0] else []) ++ (closingPlaces cs).map (· + 1) := by
  have hfirst : ['*', '/'].isPrefixOf (c :: cs) = true ↔ c = '*' ∧ cs.head? = some '/' := by
    cases cs with
    | nil => simp [List.isPrefixOf]
    | cons d cs => simp [List.isPrefixOf, @eq_comm _ '*', @eq_comm _ '/']
  rw [closingPlaces, List.length_cons, List.range_succ_eq_map, List.filter_cons, List.filter_map,
    List.drop_zero, if_congr hfirst rfl rfl]
  split
  · rfl
  · rfl

theorem closingPlaces_append_close {cs : List Char} (h : StaysOpen cs) :
    closingPlaces (cs ++ ['*', '/']) = [cs.length] := by
  induction cs with
  | nil => rfl
  | cons c cs ih =>
    obtain ⟨hc, hcs⟩ := staysOpen_cons.mp h
    have hhead : ¬ (c = '*' ∧ (cs ++ ['*', '/']).head? = some '/') := by
      cases cs with
      | nil => simp
      | cons d cs => exact hc
    rw [List.cons_append, closingPlaces_cons, if_neg hhead, ih hcs]
    rfl

/-! ## Guarded lines -/

/-- The second text is the first one with a backslash in each closing mark. -/
def Guards (line guarded : List Char) : Prop :=
  ∃ part parts, (∀ cs ∈ part :: parts, StaysOpen cs) ∧ line = ['*', '/'].intercalate (part :: parts) ∧
    guarded = ['*', '\\', '/'].intercalate (part :: parts)

theorem guards_guardClose (cs : List Char) : Guards cs (guardClose cs) := by
  fun_induction guardClose cs with
  | case1 => exact ⟨[], [], List.forall_mem_singleton.mpr staysOpen_nil, rfl, rfl⟩
  | case2 cs ih =>
    obtain ⟨part, parts, hparts, hline, hguarded⟩ := ih
    refine ⟨[], part :: parts, List.forall_mem_cons.mpr ⟨staysOpen_nil, hparts⟩, ?_, ?_⟩
    · rw [hline]
      rfl
    · rw [hguarded]
      rfl
  | case3 c cs hne ih =>
    obtain ⟨part, parts, hparts, hline, hguarded⟩ := ih
    obtain ⟨hpart, hparts⟩ := List.forall_mem_cons.mp hparts
    -- A slash behind an asterisk would be the rest of a closing mark, which is no case here.
    have hopen : StaysOpen (c :: part) := by
      refine staysOpen_cons.mpr ⟨?_, hpart⟩
      rintro ⟨rfl, hhead⟩
      obtain ⟨ds, rfl⟩ := List.head?_eq_some_iff.mp hhead
      exact hne (['*', '/'].intercalate (ds :: parts)) rfl
        (hline.trans (intercalate_append_cons ['*', '/'] ['/'] ds parts))
    refine ⟨c :: part, parts, List.forall_mem_cons.mpr ⟨hopen, hparts⟩, ?_, ?_⟩
    · rw [hline]
      exact (intercalate_append_cons ['*', '/'] [c] part parts).symm
    · rw [hguarded]
      exact (intercalate_append_cons ['*', '\\', '/'] [c] part parts).symm

theorem mem_of_mem_guardClose {cs : List Char} {c : Char} (h : c ∈ guardClose cs) :
    c ∈ cs ∨ c = '\\' := by
  fun_induction guardClose cs with
  | case1 => exact .inl h
  | case2 cs ih =>
    simp only [List.mem_cons] at h ⊢
    rcases h with h | h | h | h
    · exact .inl (.inl h)
    · exact .inr h
    · exact .inl (.inr (.inl h))
    · exact (ih h).imp_left fun h => .inr (.inr h)
  | case3 d cs hne ih =>
    rcases List.mem_cons.mp h with rfl | h
    · exact .inl List.mem_cons_self
    · exact (ih h).imp_left (List.mem_cons_of_mem d)

/-! ## Comments of many lines -/

def entryLines (entries : List String) : List (List Char) :=
  entries.flatMap fun entry => Text.pieces (· == '\n') entry.toList

theorem commentLines_eq (lead : String) (entries : List String) : commentLines lead entries =
    (entryLines entries).map fun line => lead ++ String.ofList (guardClose line) := by
  rw [commentLines, entryLines, List.map_flatMap]

/-- The comment opens in its first line and closes once, at its end. In between it has, behind the lead,
one line for each line of the entries. -/
structure IsBlockComment (entries : List String) (text : List Char) : Prop where
  opening : "/**\n".toList <+: text
  closing : closingPlaces text = [text.length - 2]
  lines : ∃ body, Text.pieces (· == '\n') text = "/**".toList :: body ++ [" */".toList] ∧
    List.Forall₂ (fun line written => ∃ guarded, written = commentLead.toList ++ guarded ∧
      Guards line guarded) (entryLines entries) body

theorem pieces_blockComment (entries : List String) :
    Text.pieces (· == '\n') (blockComment entries commentLead).toList =
      "/**".toList :: (entryLines entries).map (fun line => commentLead.toList ++ guardClose line) ++
        [" */".toList] := by
  rw [blockComment, commentLines_eq, String.toList_intercalate, List.map_append, List.map_cons,
    List.map_map]
  have hbody : (entryLines entries).map
      (String.toList ∘ fun line => commentLead ++ String.ofList (guardClose line)) =
      (entryLines entries).map fun line => commentLead.toList ++ guardClose line := by
    refine List.map_congr_left fun line _ => ?_
    rw [Function.comp_apply, String.toList_append, String.toList_ofList]
  rw [hbody]
  refine Text.pieces_intercalate (by decide) (by simp) fun l hl => ?_
  rw [List.mem_append, List.mem_cons, List.mem_map] at hl
  rcases hl with (rfl | ⟨line, hline, rfl⟩) | hl
  · simp
  · obtain ⟨entry, _, hline⟩ := List.mem_flatMap.mp hline
    have hlead : ∀ c ∈ commentLead.toList, (c == '\n') = false := by simp [commentLead]
    refine List.forall_mem_append.mpr ⟨hlead, fun c hc => ?_⟩
    rcases mem_of_mem_guardClose hc with hc | rfl
    · exact (Text.mem_of_mem_pieces hline c hc).2
    · rfl
  · rw [List.mem_singleton.mp hl]
    simp

theorem closingPlaces_blockComment (entries : List String) :
    closingPlaces (blockComment entries commentLead).toList =
      [(blockComment entries commentLead).toList.length - 2] := by
  have hstar : (commentBody entries).head? ≠ some '/' := by
    rw [commentBody]
    cases commentLines commentLead entries <;> simp [List.intercalate_cons_cons]
  have hopen : StaysOpen ('/' :: '*' :: commentBody entries) := by
    rw [staysOpen_cons, staysOpen_cons]
    exact ⟨by simp, fun h => hstar h.2, staysOpen_commentBody entries⟩
  rw [toList_blockComment, ← List.cons_append, ← List.cons_append, closingPlaces_append_close hopen,
    List.length_append]
  rfl

/-- A comment of many lines is closed at its end only, whatever closing marks, asterisks, slashes and ends
of lines its entries have. -/
theorem isBlockComment_blockComment (entries : List String) :
    IsBlockComment entries (blockComment entries commentLead).toList where
  opening := by
    rw [toList_blockComment, commentBody]
    cases commentLines commentLead entries <;>
      simp [List.intercalate_cons_cons]
  closing := closingPlaces_blockComment entries
  lines := by
    refine ⟨_, pieces_blockComment entries, ?_⟩
    rw [List.forall₂_map_right_iff, List.forall₂_same]
    exact fun line _ => ⟨_, rfl, guards_guardClose line⟩

example : blockComment ["a */ b**/", "*\n/"] commentLead =
    "/**\n * a *\\/ b**\\/\n * *\n * /\n */" := by decide

end Prose

end ApiTypes
