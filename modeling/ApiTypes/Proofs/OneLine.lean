import ApiTypes.Prose

/-!
# Descriptions on one line

A description is brought to a normal form: it has no tags, stands on one line, and has no blank at its
ends. A text in this form stays as it is.
-/

namespace ApiTypes

namespace Prose

/-! ## Tags -/

/-- A text is a tag before what stands `after` it: it has `<`, maybe a slash, at least one character,
none of them `>`, and then `>`, unless it stands at the end, where a line feed may follow. -/
def IsTag (tag after : List Char) : Prop :=
  ∃ slash body, (slash = [] ∨ slash = ['/']) ∧ body ≠ [] ∧ '>' ∉ body ∧
    (tag = '<' :: (slash ++ body) ++ ['>'] ∨
      tag = '<' :: (slash ++ body) ∧ (after = [] ∨ after = ['\n']))

def ClosesAngles (cs : List Char) : Prop :=
  ∀ before after, cs = before ++ '<' :: after → after = [] ∨ after.head? = some '>'

theorem closesAngles_nil : ClosesAngles [] := by
  intro before after h
  simp at h

theorem closesAngles_cons {c : Char} {cs : List Char} : ClosesAngles (c :: cs) ↔
    (c = '<' → cs = [] ∨ cs.head? = some '>') ∧ ClosesAngles cs := by
  constructor
  · intro h
    refine ⟨?_, fun before after hcs => h (c :: before) after (by rw [hcs]; rfl)⟩
    rintro rfl
    exact h [] cs rfl
  · rintro ⟨hc, hcs⟩ before after h
    cases before with
    | nil =>
      cases h
      exact hc rfl
    | cons d before =>
      cases h
      exact hcs before after rfl

theorem ClosesAngles.not_isTag {cs before tag after : List Char} (h : ClosesAngles cs)
    (hcs : cs = before ++ (tag ++ after)) : ¬ IsTag tag after := by
  rintro ⟨slash, body, hslash, hne, hbody, htag⟩
  obtain ⟨c, ds, hcons⟩ := List.exists_cons_of_ne_nil (List.append_ne_nil_of_right_ne_nil slash hne)
  have hc : c ≠ '>' := by
    rintro rfl
    have hmem : '>' ∈ slash ++ body := by rw [hcons]; exact List.mem_cons_self
    rcases List.mem_append.mp hmem with hmem | hmem
    · rcases hslash with rfl | rfl <;> simp at hmem
    · exact hbody hmem
  obtain ⟨rest, hrest⟩ : ∃ rest, cs = before ++ '<' :: c :: rest := by
    rw [hcons] at htag
    rcases htag with rfl | ⟨rfl, _⟩
    · exact ⟨_, hcs⟩
    · exact ⟨_, hcs⟩
  rcases h before _ hrest with hnil | hhead
  · cases hnil
  · exact hc (Option.some.inj hhead)

theorem closesAngles_stripTags (isOpen : Bool) (cs : List Char) :
    ClosesAngles (stripTags isOpen cs) := by
  fun_induction stripTags isOpen cs with
  | case1 => exact closesAngles_nil
  | case2 c cs ih => exact ih
  | case3 c cs hc ih =>
    rw [closesAngles_cons, closesAngles_cons]
    exact ⟨fun _ => .inr rfl, by simp, ih⟩
  | case4 c cs hc ih => exact ih
  | case5 c cs hne ih =>
    refine closesAngles_cons.mpr ⟨?_, ih⟩
    rintro rfl
    cases cs with
    | nil => exact .inl rfl
    | cons d ds => exact absurd rfl (hne d ds rfl)

theorem stripTags_eq_self {cs : List Char} (h : ClosesAngles cs) : stripTags false cs = cs := by
  have hall : ∀ isOpen, isOpen = false → ClosesAngles cs → stripTags isOpen cs = cs := by
    clear h
    intro isOpen
    fun_induction stripTags isOpen cs with
    | case1 => exact fun _ _ => rfl
    | case2 c cs ih => exact fun hopen => by cases hopen
    | case3 c cs hc ih =>
      intro _ h
      have hcs := (closesAngles_cons.mp (closesAngles_cons.mp h).2).2
      rw [ih rfl hcs, eq_of_beq hc]
    | case4 c cs hc ih =>
      intro _ h
      rcases (closesAngles_cons.mp h).1 rfl with hnil | hhead
      · cases hnil
      · exact absurd (beq_iff_eq.mpr (Option.some.inj hhead)) hc
    | case5 c cs hne ih => exact fun _ h => by rw [ih rfl (closesAngles_cons.mp h).2]
  exact hall false rfl h

/-! ## Lines -/

/-- Some characters are left out, but no angles. -/
inductive Thins : List Char → List Char → Prop
  | nil : Thins [] []
  | keep (c) {cs ds} : Thins cs ds → Thins (c :: cs) (c :: ds)
  | drop {c cs ds} : c ≠ '<' ∧ c ≠ '>' → Thins cs ds → Thins (c :: cs) ds

section
variable {cs ds cs' ds' : List Char}

theorem Thins.refl (cs : List Char) : Thins cs cs := by
  induction cs with
  | nil => exact .nil
  | cons c cs ih => exact .keep c ih

theorem Thins.append (h : Thins cs ds) (h' : Thins cs' ds') : Thins (cs ++ cs') (ds ++ ds') := by
  induction h with
  | nil => exact h'
  | keep c _ ih => exact .keep c ih
  | drop hc _ ih => exact .drop hc ih

theorem Thins.of_forall (h : ∀ c ∈ cs, c ≠ '<' ∧ c ≠ '>') : Thins cs [] := by
  induction cs with
  | nil => exact .nil
  | cons c cs ih =>
    obtain ⟨hc, hcs⟩ := List.forall_mem_cons.mp h
    exact .drop hc (ih hcs)

theorem Thins.mem (h : Thins cs ds) : ∀ c ∈ ds, c ∈ cs := by
  induction h with
  | nil => exact fun _ hc => hc
  | keep c _ ih =>
    intro d hd
    rcases List.mem_cons.mp hd with rfl | hd
    · exact List.mem_cons_self
    · exact List.mem_cons_of_mem _ (ih d hd)
  | drop _ _ ih => exact fun d hd => List.mem_cons_of_mem _ (ih d hd)

theorem Thins.closesAngles (h : Thins cs ds) (hcs : ClosesAngles cs) : ClosesAngles ds := by
  induction h with
  | nil => exact hcs
  | drop _ _ ih => exact ih (closesAngles_cons.mp hcs).2
  | keep c h ih =>
    obtain ⟨hc, hcs⟩ := closesAngles_cons.mp hcs
    refine closesAngles_cons.mpr ⟨fun hangle => ?_, ih hcs⟩
    cases h with
    | nil => exact .inl rfl
    | keep d h =>
      rcases hc hangle with hnil | hhead
      · cases hnil
      · exact .inr hhead
    | drop hd h =>
      rcases hc hangle with hnil | hhead
      · cases hnil
      · exact absurd (Option.some.inj hhead) hd.2

end

theorem ne_angle_of_isBlank {c : Char} (h : Text.isBlank c = true) : c ≠ '<' ∧ c ≠ '>' := by
  constructor
  · rintro rfl
    exact absurd h (by decide)
  · rintro rfl
    exact absurd h (by decide)

theorem thins_trim (cs : List Char) : Thins cs (Text.trim cs) := by
  obtain ⟨bs, hblank, hbs⟩ := Text.exists_trimEnd_append (Text.trimStart cs)
  have hstart : Thins (cs.takeWhile Text.isBlank) [] :=
    .of_forall fun c hc => ne_angle_of_isBlank (List.all_eq_true.mp List.all_takeWhile c hc)
  have hend : Thins bs [] := .of_forall fun c hc => ne_angle_of_isBlank (hblank c hc)
  have hcs : cs.takeWhile Text.isBlank ++ Text.trimStart cs = cs := List.takeWhile_append_dropWhile
  have h := hstart.append ((Thins.refl (Text.trimEnd (Text.trimStart cs))).append hend)
  rwa [hbs, hcs, List.nil_append, List.append_nil] at h

theorem thins_intercalate (ls : List (List Char)) : Thins ([' '].intercalate ls)
    ([' '].intercalate ((ls.map Text.trim).filter (! ·.isEmpty))) := by
  induction ls with
  | nil => exact .nil
  | cons l ls ih =>
    have hl := thins_trim l
    have hspace : Thins [' '] [] := .of_forall (by simp)
    rw [List.map_cons]
    cases ls with
    | nil =>
      rw [List.intercalate_singleton]
      by_cases hempty : Text.trim l = []
      · rw [hempty] at hl
        simpa [hempty] using hl
      · simpa [hempty] using hl
    | cons m ls =>
      rw [List.intercalate_cons_cons]
      -- an empty line goes with the space behind it
      by_cases hempty : Text.trim l = []
      · rw [hempty] at hl
        rw [List.filter_cons_of_neg (by simp [hempty])]
        exact (hl.append hspace).append ih
      · rw [List.filter_cons_of_pos (by simp [hempty])]
        -- a line that is the last to stay loses the space behind it
        cases hrest : ((m :: ls).map Text.trim).filter (! ·.isEmpty) with
        | nil =>
          rw [hrest] at ih
          simpa using (hl.append hspace).append ih
        | cons n ns =>
          rw [hrest] at ih
          rw [List.intercalate_cons_cons]
          exact (hl.append (.refl [' '])).append ih

def unbroken (c : Char) : Char := if Text.isLineEnd c then ' ' else c

theorem intercalate_lines (cs : List Char) :
    [' '].intercalate (Text.pieces Text.isLineEnd cs) = cs.map unbroken := by
  induction cs with
  | nil => rfl
  | cons c cs ih =>
    obtain ⟨l, ls, hls⟩ := List.exists_cons_of_ne_nil (Text.pieces_ne_nil Text.isLineEnd cs)
    rw [List.map_cons, ← ih, unbroken]
    cases hc : Text.isLineEnd c with
    | true =>
      rw [Text.pieces_cons_end hc, hls, List.intercalate_cons_cons]
      rfl
    | false =>
      rw [Text.pieces_cons hc hls, hls]
      cases ls with
      | nil => rfl
      | cons m ls => rfl

theorem thins_joinLines (cs : List Char) : Thins (cs.map unbroken) (joinLines cs) := by
  rw [← intercalate_lines]
  exact thins_intercalate _

theorem closesAngles_map_unbroken {cs : List Char} (h : ClosesAngles cs) :
    ClosesAngles (cs.map unbroken) := by
  have hangle : ∀ c, unbroken c = '<' → c = '<' := by
    intro c hc
    unfold unbroken at hc
    split at hc
    · cases hc
    · exact hc
  induction cs with
  | nil => exact h
  | cons c cs ih =>
    obtain ⟨hc, hcs⟩ := closesAngles_cons.mp h
    refine closesAngles_cons.mpr ⟨fun hopen => ?_, ih hcs⟩
    rcases hc (hangle c hopen) with rfl | hhead
    · exact .inl rfl
    · right
      rw [List.head?_map, hhead]
      rfl

theorem not_isLineEnd_of_mem_joinLines {cs : List Char} :
    ∀ c ∈ joinLines cs, Text.isLineEnd c = false := by
  intro c hc
  obtain ⟨d, _, rfl⟩ := List.mem_map.mp ((thins_joinLines cs).mem c hc)
  unfold unbroken
  cases hd : Text.isLineEnd d with
  | true => rfl
  | false => exact hd

section
variable {p : Char → Prop} {sep : List Char} {ls : List (List Char)}

theorem forall_head?_intercalate (h : ∀ l ∈ ls, l ≠ [] ∧ ∀ c ∈ l.head?, p c) :
    ∀ c ∈ (sep.intercalate ls).head?, p c := by
  cases ls with
  | nil => simp
  | cons l ls =>
    obtain ⟨hne, hl⟩ := h l List.mem_cons_self
    obtain ⟨c, cs, rfl⟩ := List.exists_cons_of_ne_nil hne
    cases ls with
    | nil => simpa using hl
    | cons m ls => simpa [List.intercalate_cons_cons] using hl

theorem forall_getLast?_intercalate (h : ∀ l ∈ ls, l ≠ [] ∧ ∀ c ∈ l.getLast?, p c) :
    ∀ c ∈ (sep.intercalate ls).getLast?, p c := by
  induction ls with
  | nil => simp
  | cons l ls ih =>
    obtain ⟨⟨hne, hl⟩, hls⟩ := List.forall_mem_cons.mp h
    cases ls with
    | nil => simpa using hl
    | cons m ls =>
      have hlast : sep.intercalate (m :: ls) ≠ [] := by
        have hm := (hls m List.mem_cons_self).1
        cases ls with
        | nil => simpa using hm
        | cons n ls => simp [List.intercalate_cons_cons, hm]
      have hd := List.getLast?_eq_some_getLast hlast
      intro c hc
      rw [List.intercalate_cons_cons, List.getLast?_append, hd] at hc
      exact ih hls c (hd.trans hc)

end

theorem joinLines_eq_self {cs : List Char} (hne : cs ≠ [])
    (hline : ∀ c ∈ cs, Text.isLineEnd c = false) (hstart : ∀ c ∈ cs.head?, Text.isBlank c = false)
    (hend : ∀ c ∈ cs.getLast?, Text.isBlank c = false) : joinLines cs = cs := by
  rw [joinLines, Text.pieces_of_forall hline]
  simp [Text.trim_eq_self hstart hend, hne]

/-! ## Normal form -/

structure IsOneLine (s : String) : Prop where
  line : ∀ c ∈ s.toList, Text.isLineEnd c = false
  start : ∀ c ∈ s.toList.head?, Text.isBlank c = false
  final : ∀ c ∈ s.toList.getLast?, Text.isBlank c = false
  angles : ClosesAngles s.toList
  untagged : ∀ before tag after, s.toList = before ++ (tag ++ after) → ¬ IsTag tag after

theorem isOneLine_oneLine (s : String) : IsOneLine (oneLine s) := by
  have hlist : (oneLine s).toList = joinLines (stripTags false s.toList) := String.toList_ofList
  have hlines : ∀ l ∈ ((Text.pieces Text.isLineEnd (stripTags false s.toList)).map Text.trim).filter
      (! ·.isEmpty), l ≠ [] ∧ (∀ c ∈ l.head?, Text.isBlank c = false) ∧
        ∀ c ∈ l.getLast?, Text.isBlank c = false := by
    intro l hl
    obtain ⟨hmem, hne⟩ := List.mem_filter.mp hl
    obtain ⟨m, _, rfl⟩ := List.mem_map.mp hmem
    exact ⟨by simpa using hne, Text.not_isBlank_of_head?_trim, Text.not_isBlank_of_getLast?_trimEnd⟩
  have hangles : ClosesAngles (joinLines (stripTags false s.toList)) :=
    (thins_joinLines _).closesAngles (closesAngles_map_unbroken (closesAngles_stripTags _ _))
  constructor
  · rw [hlist]
    exact not_isLineEnd_of_mem_joinLines
  · rw [hlist]
    exact forall_head?_intercalate fun l hl => ⟨(hlines l hl).1, (hlines l hl).2.1⟩
  · rw [hlist]
    exact forall_getLast?_intercalate fun l hl => ⟨(hlines l hl).1, (hlines l hl).2.2⟩
  · rw [hlist]
    exact hangles
  · rw [hlist]
    exact fun _ _ _ => hangles.not_isTag

theorem IsOneLine.oneLine_eq {s : String} (h : IsOneLine s) (hne : s ≠ "") : oneLine s = s := by
  have hlist : s.toList ≠ [] := mt String.toList_eq_nil_iff.mp hne
  rw [oneLine, stripTags_eq_self h.angles, joinLines_eq_self hlist h.line h.start h.final,
    String.ofList_toList]

/-- What is written of a description that is not empty is in normal form, and stays as it is if anything is
left of the description. A description in normal form is written as it is. -/
theorem isNormal_oneLine? {s : String} (h : s ≠ "") :
    ∃ t, oneLine? (some s) = some t ∧ IsOneLine t ∧ (t ≠ "" → oneLine? (some t) = some t) ∧
      (IsOneLine s → t = s) := by
  have hsome : ∀ {t : String}, t ≠ "" → oneLine? (some t) = some (oneLine t) := by
    intro t ht
    simp [oneLine?, ht]
  refine ⟨oneLine s, hsome h, isOneLine_oneLine s, fun hne => ?_, fun hs => hs.oneLine_eq h⟩
  rw [hsome hne, (isOneLine_oneLine s).oneLine_eq hne]

theorem isNormal_unclosed : "  <p>All <b>pets</b>,\r\n\x0b\u2028 a <> b <\nunclosed " ≠ "" ∧
    ∃ t, oneLine? (some "  <p>All <b>pets</b>,\r\n\x0b\u2028 a <> b <\nunclosed ") = some t ∧
      t = "All pets, a <> b" ∧ IsOneLine t ∧ oneLine? (some t) = some t := by
  have hne : "  <p>All <b>pets</b>,\r\n\x0b\u2028 a <> b <\nunclosed " ≠ "" := by decide
  obtain ⟨t, ht, hnormal, hfixed, _⟩ := isNormal_oneLine? hne
  have heq : t = "All pets, a <> b" := by
    rw [← Option.some_inj, ← ht]
    decide +kernel
  exact ⟨hne, t, ht, heq, hnormal, hfixed (by rw [heq]; decide)⟩

end Prose

end ApiTypes
