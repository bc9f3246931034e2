/-!
# Lines

`pieces p` cuts a text at every character with `p` and keeps empty pieces, so one cut makes two
pieces. `isLineEnd` holds of every character that ends a line of prose.
-/

namespace ApiTypes.Text

def isLineEnd (c : Char) : Bool :=
  let n := c.toNat
  (10 ≤ n && n ≤ 13) || (28 ≤ n && n ≤ 30) || n == 0x85 || n == 0x2028 || n == 0x2029

def pieces (p : Char → Bool) (cs : List Char) : List (List Char) :=
  cs.foldr (fun c rest =>
    if p c then [] :: rest
    else match rest with
      | [] => [[c]]
      | l :: ls => (c :: l) :: ls) [[]]

theorem pieces_cons_end {p : Char → Bool} {c : Char} (h : p c = true) (cs : List Char) :
    pieces p (c :: cs) = [] :: pieces p cs := by
  unfold pieces
  rw [List.foldr_cons, if_pos h]

theorem pieces_cons {p : Char → Bool} {c : Char} (h : p c = false) {cs l : List Char}
    {ls : List (List Char)} (hcs : pieces p cs = l :: ls) :
    pieces p (c :: cs) = (c :: l) :: ls := by
  unfold pieces at hcs ⊢
  rw [List.foldr_cons, hcs, h]
  rfl

theorem pieces_ne_nil (p : Char → Bool) (cs : List Char) : pieces p cs ≠ [] := by
  cases cs with
  | nil => simp [pieces]
  | cons c cs =>
    unfold pieces
    rw [List.foldr_cons]
    split
    · simp
    · split <;> simp

theorem pieces_of_forall {p : Char → Bool} {cs : List Char} (h : ∀ c ∈ cs, p c = false) :
    pieces p cs = [cs] := by
  induction cs with
  | nil => rfl
  | cons c cs ih =>
    obtain ⟨hc, hcs⟩ := List.forall_mem_cons.mp h
    exact pieces_cons hc (ih hcs)

theorem pieces_append_cons {p : Char → Bool} {c : Char} (hc : p c = true)
    (front cs : List Char) : pieces p (front ++ c :: cs) = pieces p front ++ pieces p cs := by
  induction front with
  | nil => exact pieces_cons_end hc cs
  | cons d front ih =>
    cases hd : p d with
    | true => rw [List.cons_append, pieces_cons_end hd, pieces_cons_end hd, ih, List.cons_append]
    | false =>
      obtain ⟨l, ls, hls⟩ := List.exists_cons_of_ne_nil (pieces_ne_nil p front)
      rw [hls, List.cons_append] at ih
      rw [List.cons_append, pieces_cons hd ih, pieces_cons hd hls, List.cons_append]

theorem pieces_append {p : Char → Bool} {cs : List Char} {c : Char}
    (hcs : ∀ d ∈ cs, p d = false) (hc : p c = true) (ds : List Char) :
    pieces p (cs ++ c :: ds) = cs :: pieces p ds := by
  rw [pieces_append_cons hc, pieces_of_forall hcs]
  rfl

theorem mem_of_mem_pieces {p : Char → Bool} {cs l : List Char} (hl : l ∈ pieces p cs) :
    ∀ c ∈ l, c ∈ cs ∧ p c = false := by
  induction cs generalizing l with
  | nil =>
    rw [pieces, List.foldr_nil, List.mem_singleton] at hl
    simp [hl]
  | cons d cs ih =>
    have hlater : ∀ {m}, m ∈ pieces p cs → ∀ c ∈ m, c ∈ d :: cs ∧ p c = false :=
      fun hm c hc => ⟨List.mem_cons_of_mem _ (ih hm c hc).1, (ih hm c hc).2⟩
    by_cases hd : p d = true
    · rw [pieces_cons_end hd] at hl
      rcases List.mem_cons.mp hl with rfl | hl
      · simp
      · exact hlater hl
    · obtain ⟨m, ms, hms⟩ := List.exists_cons_of_ne_nil (pieces_ne_nil p cs)
      rw [hms] at hlater
      rw [pieces_cons (by simpa using hd) hms] at hl
      rcases List.mem_cons.mp hl with rfl | hl
      · exact List.forall_mem_cons.mpr
          ⟨⟨List.mem_cons_self, by simpa using hd⟩, hlater List.mem_cons_self⟩
      · exact hlater (List.mem_cons_of_mem _ hl)

/-- Every carriage return becomes a line feed, and a line feed behind one is dropped. -/
def unifyLineFeeds (cs : List Char) : List Char :=
  (('\n' :: cs).zip cs).filterMap fun (before, c) =>
    if c == '\r' then some '\n' else if c == '\n' && before == '\r' then none else some c

def withoutFinalLineFeed (cs : List Char) : List Char :=
  if cs.getLast? == some '\n' then cs.dropLast else cs

end ApiTypes.Text
