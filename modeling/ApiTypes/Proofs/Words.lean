import ApiTypes.Proofs.OperationNames

/-!
# Words of a phrase

The words of a phrase are the matches of a pattern, one behind the other, and together they are its letters
and digits. A name in camel case has all of them, some in the other case.
-/

namespace ApiTypes

namespace Name

/-! ## Letters and digits -/

theorem isWordChar_of_isAlphanum {c : Char} (h : c.isAlphanum = true) : isWordChar c = true := by
  rw [isWordChar, h, Bool.true_or]

theorem isAlphanum_eq (c : Char) : c.isAlphanum = (c.isUpper || c.isLower || c.isDigit) := rfl

/-- What a letter or digit is, and that it is nothing else. -/
inductive Kind (c : Char) : Prop
  | digit : c.isDigit = true → c.isLower = false → c.isUpper = false → Kind c
  | small : c.isDigit = false → c.isLower = true → c.isUpper = false → Kind c
  | capital : c.isDigit = false → c.isLower = false → c.isUpper = true → Kind c

theorem kind_of_isAlphanum {c : Char} (h : c.isAlphanum = true) : Kind c := by
  have hkinds : (c.isDigit && !c.isLower && !c.isUpper || !c.isDigit && c.isLower && !c.isUpper ||
      !c.isDigit && !c.isLower && c.isUpper) = true :=
    forall_of_isWordChar (p := fun c => c.isAlphanum = true →
      (c.isDigit && !c.isLower && !c.isUpper || !c.isDigit && c.isLower && !c.isUpper ||
        !c.isDigit && !c.isLower && c.isUpper) = true) (by decide) (isWordChar_of_isAlphanum h) h
  simp only [Bool.or_eq_true, Bool.and_eq_true, Bool.not_eq_true'] at hkinds
  rcases hkinds with (⟨⟨hd, hl⟩, hu⟩ | ⟨⟨hd, hl⟩, hu⟩) | ⟨⟨hd, hl⟩, hu⟩
  · exact .digit hd hl hu
  · exact .small hd hl hu
  · exact .capital hd hl hu

theorem isDigit_of_isLower {c : Char} (h : c.isLower = true) : c.isDigit = false := by
  have hletter : c.isAlphanum = true := by simp [isAlphanum_eq, h]
  cases kind_of_isAlphanum hletter with
  | digit _ hsmall => exact absurd (h.symm.trans hsmall) (by decide)
  | small hdigit => exact hdigit
  | capital hdigit => exact hdigit

theorem isLower_toLower_of_isAlpha {c : Char} (h : c.isAlpha = true) : c.toLower.isLower = true :=
  forall_of_isWordChar (p := fun c => c.isAlpha = true → c.toLower.isLower = true) (by decide)
    (isWordChar_of_isAlphanum (by rw [Char.isAlphanum, h]; rfl)) h

section
variable {c : Char} (h : c.isAlphanum = true)
include h

theorem isAlphanum_toLower : c.toLower.isAlphanum = true :=
  forall_of_isWordChar (p := fun c => c.isAlphanum = true → c.toLower.isAlphanum = true) (by decide)
    (isWordChar_of_isAlphanum h) h

theorem isAlphanum_toUpper : c.toUpper.isAlphanum = true :=
  forall_of_isWordChar (p := fun c => c.isAlphanum = true → c.toUpper.isAlphanum = true) (by decide)
    (isWordChar_of_isAlphanum h) h

theorem toLower_toLower : c.toLower.toLower = c.toLower :=
  forall_of_isWordChar (p := fun c => c.toLower.toLower = c.toLower) (by decide)
    (isWordChar_of_isAlphanum h)

theorem toLower_toUpper : c.toUpper.toLower = c.toLower :=
  forall_of_isWordChar (p := fun c => c.toUpper.toLower = c.toLower) (by decide)
    (isWordChar_of_isAlphanum h)

end

/-! ## Words -/

section
variable {c d : Char}

theorem joins_digit (h : c.isDigit = true) (d : Char) (next : Option Char) :
    joins c d next = d.isDigit := by
  rw [joins, if_pos h]

theorem joins_small (hdigit : c.isDigit = false) (h : c.isLower = true) (d : Char)
    (next : Option Char) : joins c d next = d.isLower := by
  rw [joins, if_neg (by simp [hdigit]), if_pos h]

theorem joins_capital (hdigit : c.isDigit = false) (hsmall : c.isLower = false) (d : Char)
    (next : Option Char) :
    joins c d next = (d.isLower || (d.isUpper && !(next.any Char.isLower))) := by
  rw [joins, if_neg (by simp [hdigit]), if_neg (by simp [hsmall])]

theorem isAlphanum_of_joins {next : Option Char} (h : joins c d next = true) :
    d.isAlphanum = true := by
  rw [isAlphanum_eq]
  unfold joins at h
  split at h
  · rw [h, Bool.or_true]
  split at h
  · simp [h]
  · rcases Bool.or_eq_true_iff.mp h with h | h
    · simp [h]
    · simp [(Bool.and_eq_true_iff.mp h).1]

theorem words_skip (h : c.isAlphanum = false) (cs : List Char) : words (c :: cs) = words cs := by
  conv_lhs => unfold words
  rw [if_pos (by simp [h])]

theorem words_single (h : c.isAlphanum = true) : words [c] = [[c]] := by
  unfold words
  rw [if_neg (by simp [h])]
  rfl

theorem words_joined (h : c.isAlphanum = true) {ds w : List Char} {ws : List (List Char)}
    (hjoins : joins c d ds.head? = true) (hwords : words (d :: ds) = w :: ws) :
    words (c :: d :: ds) = (c :: w) :: ws := by
  conv_lhs => unfold words
  rw [if_neg (by simp [h]), hwords]
  exact if_pos hjoins

theorem words_apart (h : c.isAlphanum = true) {ds : List Char}
    (hjoins : joins c d ds.head? = false) : words (c :: d :: ds) = [c] :: words (d :: ds) := by
  conv_lhs => unfold words
  rw [if_neg (by simp [h])]
  cases words (d :: ds) with
  | nil => rfl
  | cons w ws => exact if_neg (by simp [hjoins])

end

theorem flatten_words (cs : List Char) : (words cs).flatten = cs.filter Char.isAlphanum := by
  induction cs with
  | nil => rfl
  | cons c cs ih =>
    cases hc : c.isAlphanum with
    | false => rw [words_skip hc, ih, List.filter_cons_of_neg (by simp [hc])]
    | true =>
      rw [List.filter_cons_of_pos hc, ← ih]
      cases cs with
      | nil =>
        rw [words_single hc]
        rfl
      | cons d ds =>
        cases hjoins : joins c d ds.head? with
        | false =>
          rw [words_apart hc hjoins]
          rfl
        | true =>
          cases hwords : words (d :: ds) with
          | nil =>
            rw [hwords, List.filter_cons_of_pos (isAlphanum_of_joins hjoins)] at ih
            cases ih
          | cons w ws =>
            rw [words_joined hc hjoins hwords]
            rfl

/-! ### Matches of a pattern -/

/-- As many capitals as there are before something other than a small letter. -/
def capitalsAt (cs : List Char) : List Char :=
  let run := cs.takeWhile Char.isUpper
  if (cs.dropWhile Char.isUpper).head?.any Char.isLower then run.dropLast else run

def smallLettersAt : List Char → List Char
  | [] => []
  | c :: cs =>
    if c.isUpper && cs.head?.any Char.isLower then c :: cs.takeWhile Char.isLower
    else (c :: cs).takeWhile Char.isLower

/-- The match at the front of a text: capitals, else small letters, else digits. -/
def matchAt (cs : List Char) : List Char :=
  if capitalsAt cs ≠ [] then capitalsAt cs
  else if smallLettersAt cs ≠ [] then smallLettersAt cs
  else cs.takeWhile Char.isDigit

/-- All matches, each behind the end of the one before it. -/
def matchesIn : List Char → List (List Char)
  | [] => []
  | c :: cs =>
    match matchAt (c :: cs) with
    | [] => matchesIn cs
    | d :: ds => (d :: ds) :: matchesIn (cs.drop ds.length)
  termination_by cs => cs.length

section
variable {c d : Char}

theorem matchAt_skip (h : c.isAlphanum = false) (cs : List Char) : matchAt (c :: cs) = [] := by
  simp only [isAlphanum_eq, Bool.or_eq_false_iff] at h
  simp [matchAt, capitalsAt, smallLettersAt, h]

theorem matchAt_digit (hdigit : c.isDigit = true) (hsmall : c.isLower = false)
    (hcapital : c.isUpper = false) (cs : List Char) :
    matchAt (c :: cs) = c :: cs.takeWhile Char.isDigit := by
  simp [matchAt, capitalsAt, smallLettersAt, hdigit, hsmall, hcapital]

theorem matchAt_small (hsmall : c.isLower = true) (hcapital : c.isUpper = false)
    (cs : List Char) : matchAt (c :: cs) = c :: cs.takeWhile Char.isLower := by
  simp [matchAt, capitalsAt, smallLettersAt, hsmall, hcapital]

theorem capitalsAt_cons_cons (hc : c.isUpper = true) (hd : d.isUpper = true) (ds : List Char) :
    capitalsAt (c :: d :: ds) = c :: capitalsAt (d :: ds) := by
  simp only [capitalsAt, List.takeWhile_cons_of_pos hc, List.takeWhile_cons_of_pos hd,
    List.dropWhile_cons_of_pos hc, List.dropWhile_cons_of_pos hd]
  split <;> simp

theorem capitalsAt_cons_eq_nil_iff (hc : c.isUpper = true) (cs : List Char) :
    capitalsAt (c :: cs) = [] ↔ cs.head?.any Char.isLower = true := by
  cases cs with
  | nil => simp [capitalsAt, hc]
  | cons d ds =>
    cases hd : d.isUpper with
    | false => simp [capitalsAt, hc, hd]
    | true =>
      have hsmall : d.isLower = false := by
        cases kind_of_isAlphanum (by rw [isAlphanum_eq, hd]; rfl) with
        | digit _ h _ => exact h
        | small _ _ h => exact absurd (hd.symm.trans h) (by decide)
        | capital _ h _ => exact h
      simp [capitalsAt_cons_cons hc hd, hsmall]

theorem matchAt_capital (hc : c.isUpper = true) (cs : List Char) :
    matchAt (c :: cs) = if cs.head?.any Char.isLower then c :: cs.takeWhile Char.isLower
      else capitalsAt (c :: cs) := by
  have hnil := capitalsAt_cons_eq_nil_iff hc cs
  unfold matchAt
  cases hnext : cs.head?.any Char.isLower with
  | true => simp [hnil.mpr hnext, smallLettersAt, hc, hnext]
  | false =>
    rw [if_pos (by simp [hnil, hnext])]
    rfl

theorem matchAt_single (h : c.isAlphanum = true) : matchAt [c] = [c] := by
  cases kind_of_isAlphanum h with
  | digit hdigit hsmall hcapital => exact matchAt_digit hdigit hsmall hcapital []
  | small _ hsmall hcapital => exact matchAt_small hsmall hcapital []
  | capital _ _ hcapital => simp [matchAt_capital hcapital, capitalsAt, hcapital]

theorem matchAt_apart (h : c.isAlphanum = true) {ds : List Char}
    (hjoins : joins c d ds.head? = false) : matchAt (c :: d :: ds) = [c] := by
  cases kind_of_isAlphanum h with
  | digit hdigit hsmall hcapital =>
    rw [joins_digit hdigit] at hjoins
    simp [matchAt_digit hdigit hsmall hcapital, hjoins]
  | small hdigit hsmall hcapital =>
    rw [joins_small hdigit hsmall] at hjoins
    simp [matchAt_small hsmall hcapital, hjoins]
  | capital hdigit hsmall hcapital =>
    rw [joins_capital hdigit hsmall, Bool.or_eq_false_iff] at hjoins
    rw [matchAt_capital hcapital, if_neg (by simp [hjoins.1])]
    cases hd : d.isUpper with
    | false => simp [capitalsAt, hcapital, hd, hjoins.1]
    | true =>
      have hnext : ds.head?.any Char.isLower = true := by simpa [hd] using hjoins.2
      rw [capitalsAt_cons_cons hcapital hd, (capitalsAt_cons_eq_nil_iff hd ds).mpr hnext]

theorem matchAt_joined (h : c.isAlphanum = true) {ds : List Char}
    (hjoins : joins c d ds.head? = true) : matchAt (c :: d :: ds) = c :: matchAt (d :: ds) := by
  have hd := kind_of_isAlphanum (isAlphanum_of_joins hjoins)
  -- nine pairs of kinds, of which four join
  cases kind_of_isAlphanum h with
  | digit hdigit hsmall hcapital =>
    rw [joins_digit hdigit] at hjoins
    rw [matchAt_digit hdigit hsmall hcapital]
    cases hd with
    | digit hd hl hu => simp [hd, matchAt_digit hd hl hu]
    | small hd => simp [hd] at hjoins
    | capital hd => simp [hd] at hjoins
  | small hdigit hsmall hcapital =>
    rw [joins_small hdigit hsmall] at hjoins
    rw [matchAt_small hsmall hcapital]
    cases hd with
    | digit _ hl => simp [hl] at hjoins
    | small _ hl hu => simp [hl, matchAt_small hl hu]
    | capital _ hl => simp [hl] at hjoins
  | capital hdigit hsmall hcapital =>
    rw [joins_capital hdigit hsmall] at hjoins
    rw [matchAt_capital hcapital]
    cases hd with
    | digit _ hl hu => simp [hl, hu] at hjoins
    | small _ hl hu => simp [hl, matchAt_small hl hu]
    | capital _ hl hu =>
      have hnext : ds.head?.any Char.isLower = false := by simpa [hl, hu] using hjoins
      rw [capitalsAt_cons_cons hcapital hu, matchAt_capital hu, hnext]
      simp [hl]

theorem words_cons (h : c.isAlphanum = true) (cs : List Char) :
    ∃ w, matchAt (c :: cs) = c :: w ∧ words (c :: cs) = (c :: w) :: words (cs.drop w.length) := by
  induction cs generalizing c with
  | nil => exact ⟨[], matchAt_single h, words_single h⟩
  | cons d ds ih =>
    cases hjoins : joins c d ds.head? with
    | false => exact ⟨[], matchAt_apart h hjoins, words_apart h hjoins⟩
    | true =>
      obtain ⟨w, hmatch, hwords⟩ := ih (isAlphanum_of_joins hjoins)
      exact ⟨d :: w, by rw [matchAt_joined h hjoins, hmatch], words_joined h hjoins hwords⟩

end

theorem words_eq_matchesIn (cs : List Char) : words cs = matchesIn cs := by
  fun_induction matchesIn cs with
  | case1 => rfl
  | case2 c cs hmatch ih =>
    cases hc : c.isAlphanum with
    | false => rw [words_skip hc, ih]
    | true =>
      obtain ⟨w, hw, _⟩ := words_cons hc cs
      rw [hmatch] at hw
      cases hw
  | case3 c cs d ds hmatch ih =>
    cases hc : c.isAlphanum with
    | false =>
      rw [matchAt_skip hc] at hmatch
      cases hmatch
    | true =>
      obtain ⟨w, hw, hwords⟩ := words_cons hc cs
      rw [hmatch] at hw
      cases hw
      rw [hwords, ih]

example : (words "HTTPServer42x_éid".toList).map String.ofList = ["HTTP", "Server", "42", "x", "id"] := by
  decide +kernel

/-! ## Camel case -/

theorem isAlphanum_of_mem_words {cs w : List Char} (hw : w ∈ words cs) :
    ∀ c ∈ w, c.isAlphanum = true := by
  intro c hc
  have hmem : c ∈ (words cs).flatten := List.mem_flatten.mpr ⟨w, hw, hc⟩
  rw [flatten_words] at hmem
  exact (List.mem_filter.mp hmem).2

theorem isAlphanum_map_toLower {w : List Char} (h : ∀ c ∈ w, c.isAlphanum = true) :
    ∀ c ∈ w.map Char.toLower, c.isAlphanum = true :=
  List.forall_mem_map.mpr fun c hc => isAlphanum_toLower (h c hc)

theorem map_toLower_map_toLower {w : List Char} (h : ∀ c ∈ w, c.isAlphanum = true) :
    (w.map Char.toLower).map Char.toLower = w.map Char.toLower := by
  rw [List.map_map]
  exact List.map_congr_left fun c hc => toLower_toLower (h c hc)

theorem isAlphanum_capitalizeWord {w : List Char} (h : ∀ c ∈ w, c.isAlphanum = true) :
    ∀ c ∈ capitalizeWord w, c.isAlphanum = true := by
  cases w with
  | nil => exact h
  | cons c cs =>
    obtain ⟨hc, hcs⟩ := List.forall_mem_cons.mp h
    exact List.forall_mem_cons.mpr ⟨isAlphanum_toUpper hc, isAlphanum_map_toLower hcs⟩

theorem map_toLower_capitalizeWord {w : List Char} (h : ∀ c ∈ w, c.isAlphanum = true) :
    (capitalizeWord w).map Char.toLower = w.map Char.toLower := by
  cases w with
  | nil => rfl
  | cons c cs =>
    obtain ⟨hc, hcs⟩ := List.forall_mem_cons.mp h
    rw [capitalizeWord, List.map_cons, toLower_toUpper hc, map_toLower_map_toLower hcs,
      List.map_cons]

theorem toList_camelCase {s : String} {w : List Char} {ws : List (List Char)}
    (h : words s.toList = w :: ws) :
    (camelCase s).toList = w.map Char.toLower ++ ws.flatMap capitalizeWord := by
  unfold camelCase
  rw [h]
  exact String.toList_ofList

theorem camelCase_eq_empty {s : String} (h : words s.toList = []) : camelCase s = "" := by
  unfold camelCase
  rw [h]

theorem isAlphanum_camelCase (s : String) : ∀ c ∈ (camelCase s).toList, c.isAlphanum = true := by
  cases hwords : words s.toList with
  | nil =>
    rw [camelCase_eq_empty hwords]
    exact fun _ hc => absurd hc List.not_mem_nil
  | cons w ws =>
    have hall : ∀ v ∈ w :: ws, ∀ c ∈ v, c.isAlphanum = true :=
      hwords ▸ fun v hv => isAlphanum_of_mem_words hv
    obtain ⟨hw, hws⟩ := List.forall_mem_cons.mp hall
    rw [toList_camelCase hwords]
    refine List.forall_mem_append.mpr ⟨isAlphanum_map_toLower hw, fun c hc => ?_⟩
    obtain ⟨v, hv, hc⟩ := List.mem_flatMap.mp hc
    exact isAlphanum_capitalizeWord (hws v hv) c hc

theorem map_toLower_camelCase (s : String) :
    (camelCase s).toList.map Char.toLower = (s.toList.filter Char.isAlphanum).map Char.toLower := by
  rw [← flatten_words]
  cases hwords : words s.toList with
  | nil =>
    rw [camelCase_eq_empty hwords]
    rfl
  | cons w ws =>
    have hall : ∀ v ∈ w :: ws, ∀ c ∈ v, c.isAlphanum = true :=
      hwords ▸ fun v hv => isAlphanum_of_mem_words hv
    obtain ⟨hw, hws⟩ := List.forall_mem_cons.mp hall
    have hrest : (ws.flatMap capitalizeWord).map Char.toLower = ws.flatten.map Char.toLower := by
      rw [List.map_flatMap, List.map_flatten, List.flatMap_def]
      exact congrArg _ (List.map_congr_left fun v hv => map_toLower_capitalizeWord (hws v hv))
    rw [toList_camelCase hwords, List.map_append, map_toLower_map_toLower hw, hrest,
      List.flatten_cons, List.map_append]

theorem exists_camelCase_cons {s : String} {c : Char} {cs : List Char} (hs : s.toList = c :: cs)
    (h : c.isAlphanum = true) : ∃ ds, (camelCase s).toList = c.toLower :: ds := by
  obtain ⟨w, _, hwords⟩ := words_cons h cs
  rw [← hs] at hwords
  exact ⟨_, toList_camelCase hwords⟩

end Name

end ApiTypes
