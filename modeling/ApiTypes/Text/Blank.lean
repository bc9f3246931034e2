/-!
# Blank characters

The characters trimmed from the two ends of a text: the Unicode white space together with the
four separators just below the space.
-/

namespace ApiTypes.Text

def isBlank (c : Char) : Bool :=
  let n := c.toNat
  (9 ≤ n && n ≤ 13) || (28 ≤ n && n ≤ 32) || n == 0x85 || n == 0xA0 || n == 0x1680 ||
    (0x2000 ≤ n && n ≤ 0x200A) || n == 0x2028 || n == 0x2029 || n == 0x202F || n == 0x205F ||
    n == 0x3000

def trimStart (cs : List Char) : List Char := cs.dropWhile isBlank

def trimEnd (cs : List Char) : List Char := (cs.reverse.dropWhile isBlank).reverse

def trim (cs : List Char) : List Char := trimEnd (trimStart cs)

theorem not_isBlank_of_head?_trimStart {cs : List Char} :
    ∀ c ∈ (trimStart cs).head?, isBlank c = false := by
  intro c hc
  have h := List.head?_dropWhile_not isBlank cs
  rw [trimStart] at hc
  rw [hc] at h
  simpa using h

theorem not_isBlank_of_getLast?_trimEnd {cs : List Char} :
    ∀ c ∈ (trimEnd cs).getLast?, isBlank c = false := by
  intro c hc
  rw [trimEnd, List.getLast?_reverse] at hc
  exact not_isBlank_of_head?_trimStart c hc

theorem exists_trimEnd_append (cs : List Char) :
    ∃ bs, (∀ c ∈ bs, isBlank c = true) ∧ trimEnd cs ++ bs = cs := by
  refine ⟨(cs.reverse.takeWhile isBlank).reverse, fun c hc => ?_, ?_⟩
  · exact List.all_eq_true.mp List.all_takeWhile c (List.mem_reverse.mp hc)
  · rw [trimEnd, ← List.reverse_append, List.takeWhile_append_dropWhile, List.reverse_reverse]

theorem not_isBlank_of_head?_trim {cs : List Char} : ∀ c ∈ (trim cs).head?, isBlank c = false := by
  intro c hc
  obtain ⟨bs, _, hbs⟩ := exists_trimEnd_append (trimStart cs)
  refine @not_isBlank_of_head?_trimStart cs c ?_
  rw [← hbs, List.head?_append]
  exact Option.or_eq_some_iff.mpr (.inl hc)

theorem trimStart_eq_self {cs : List Char} (h : ∀ c ∈ cs.head?, isBlank c = false) :
    trimStart cs = cs := by
  cases cs with
  | nil => rfl
  | cons c cs => exact List.dropWhile_cons_of_neg (by simp [h c rfl])

theorem trim_eq_self {cs : List Char} (hstart : ∀ c ∈ cs.head?, isBlank c = false)
    (hend : ∀ c ∈ cs.getLast?, isBlank c = false) : trim cs = cs := by
  rw [trim, trimStart_eq_self hstart, trimEnd]
  have h : trimStart cs.reverse = cs.reverse :=
    trimStart_eq_self fun c hc => hend c (by rwa [List.head?_reverse] at hc)
  rw [← trimStart, h, List.reverse_reverse]

end ApiTypes.Text
