import Mathlib
import ApiTypes.Delimiter
import ApiTypes.Typings
import ApiTypes.Proofs.Comment
import ApiTypes.Proofs.Mapping

/-!
# Where comments end

The comments on components, types, responses and operations are written around texts of the document
as these stand. Such a comment ends where it is closed exactly when the text has no closing mark of
its own.
-/

namespace ApiTypes

namespace Prose

/-! ## The end of a comment -/

def behindClose? : List Char → Option (List Char)
  | [] => none
  | c :: cs => if c = '*' ∧ cs.head? = some '/' then some cs.tail else behindClose? cs

/-- The comment at the start of a text ends right before `rest`. -/
def EndsBefore (text rest : String) : Prop :=
  ∃ cs, text.toList = '/' :: '*' :: cs ∧ behindClose? cs = some rest.toList

theorem behindClose?_append {cs rest : List Char} :
    behindClose? (cs ++ '*' :: '/' :: rest) = some rest ↔ StaysOpen cs := by
  induction cs with
  | nil => simp [behindClose?, staysOpen_nil]
  | cons c cs ih =>
    have hhead : (cs ++ '*' :: '/' :: rest).head? = some '/' ↔ cs.head? = some '/' := by
      cases cs <;> simp
    rw [List.cons_append, behindClose?, staysOpen_cons, ← hhead]
    by_cases hc : c = '*' ∧ (cs ++ '*' :: '/' :: rest).head? = some '/'
    · -- The mark that closes too early leaves more behind it.
      rw [if_pos hc]
      obtain ⟨ds, rfl⟩ := List.head?_eq_some_iff.mp (hhead.mp hc.2)
      have hlong : ds ++ '*' :: '/' :: rest ≠ rest := by
        intro h
        have := congrArg List.length h
        simp at this
        omega
      simp [hc.1, hlong]
    · rw [if_neg hc, ih]
      exact (and_iff_right hc).symm

theorem endsBefore_iff {text rest : String} {body : List Char}
    (h : text.toList = '/' :: '*' :: (body ++ '*' :: '/' :: rest.toList)) :
    EndsBefore text rest ↔ StaysOpen body := by
  rw [← @behindClose?_append body rest.toList]
  constructor
  · rintro ⟨cs, hcs, hclose⟩
    rw [h] at hcs
    cases hcs
    exact hclose
  · exact fun hclose => ⟨_, h, hclose⟩

/-! ## Descriptions on one line -/

theorem ne_mark_of_isBlank {c : Char} (h : Text.isBlank c = true) : c ≠ '*' ∧ c ≠ '/' := by
  constructor
  · rintro rfl
    exact absurd h (by decide)
  · rintro rfl
    exact absurd h (by decide)

theorem head?_pieces {p : Char → Bool} {d : Char} (hd : p d = false) {cs l : List Char}
    {ls : List (List Char)} (h : Text.pieces p cs = l :: ls) :
    l.head? = some d ↔ cs.head? = some d := by
  cases cs with
  | nil =>
    cases h
    rfl
  | cons c cs =>
    by_cases hc : p c = true
    · rw [Text.pieces_cons_end hc] at h
      cases h
      have hne : c ≠ d := by
        rintro rfl
        rw [hd] at hc
        cases hc
      simp [hne]
    · obtain ⟨m, ms, hms⟩ := List.exists_cons_of_ne_nil (Text.pieces_ne_nil p cs)
      rw [Text.pieces_cons (by simpa using hc) hms] at h
      cases h
      rfl

theorem staysOpen_pieces {p : Char → Bool} (hstar : p '*' = false) (hslash : p '/' = false)
    {cs : List Char} : (∀ l ∈ Text.pieces p cs, StaysOpen l) ↔ StaysOpen cs := by
  induction cs with
  | nil => exact List.forall_mem_singleton
  | cons c cs ih =>
    by_cases hc : p c = true
    · have hne : c ≠ '*' := by
        rintro rfl
        rw [hstar] at hc
        cases hc
      rw [Text.pieces_cons_end hc, List.forall_mem_cons, ih, staysOpen_cons]
      simp [hne, staysOpen_nil]
    · obtain ⟨l, ls, hls⟩ := List.exists_cons_of_ne_nil (Text.pieces_ne_nil p cs)
      rw [hls, List.forall_mem_cons] at ih
      rw [Text.pieces_cons (by simpa using hc) hls, List.forall_mem_cons, staysOpen_cons,
        staysOpen_cons, head?_pieces hslash hls, and_assoc, ih]

theorem staysOpen_append_inert {cs ds : List Char} (h : ∀ c ∈ ds, c ≠ '*' ∧ c ≠ '/') :
    StaysOpen (cs ++ ds) ↔ StaysOpen cs := by
  by_cases hds : ds = []
  · rw [hds, List.append_nil]
  · have hend : StaysOpen (cs ++ ds ++ []) ↔ StaysOpen cs ∧ StaysOpen [] :=
      staysOpen_separated hds h
    rw [List.append_nil] at hend
    rw [hend]
    exact and_iff_left staysOpen_nil

theorem staysOpen_trim (cs : List Char) : StaysOpen (Text.trim cs) ↔ StaysOpen cs := by
  have hstart : StaysOpen (Text.trimStart cs) ↔ StaysOpen cs := by
    have hcs : cs.takeWhile Text.isBlank ++ Text.trimStart cs = cs := List.takeWhile_append_dropWhile
    have hblank : ∀ c ∈ cs.takeWhile Text.isBlank, c ≠ '*' :=
      fun c hc => (ne_mark_of_isBlank (List.mem_takeWhile_imp hc)).1
    rw [← staysOpen_append_of_ne_star hblank, hcs]
  have hend : ∀ ds, StaysOpen (Text.trimEnd ds) ↔ StaysOpen ds := by
    intro ds
    obtain ⟨bs, hblank, hds⟩ := Text.exists_trimEnd_append ds
    rw [← staysOpen_append_inert fun c hc => ne_mark_of_isBlank (hblank c hc), hds]
  rw [Text.trim, hend, hstart]

/-- Only tags that are left out can bring the parts of a closing mark together. -/
theorem staysOpen_oneLine (s : String) :
    StaysOpen (oneLine s).toList ↔ StaysOpen (stripTags false s.toList) := by
  have hfilter : ∀ ls : List (List Char),
      (∀ l ∈ ls.filter (! ·.isEmpty), StaysOpen l) ↔ ∀ l ∈ ls, StaysOpen l := by
    intro ls
    constructor
    · intro h l hl
      by_cases hempty : l = []
      · rw [hempty]
        exact staysOpen_nil
      · exact h l (List.mem_filter.mpr ⟨hl, by simpa using hempty⟩)
    · exact fun h l hl => h l (List.mem_filter.mp hl).1
  rw [oneLine, String.toList_ofList, joinLines, staysOpen_intercalate (by simp) (by simp),
    hfilter, List.forall_mem_map]
  simp only [staysOpen_trim]
  exact staysOpen_pieces rfl rfl

/-! ## Comments around a text -/

section
variable {opening closing text rest after : String} {c : Char} {cs : List Char}

theorem endsBefore_around (hopen : opening.toList = ['/', '*', '*', c])
    (hclose : closing.toList = cs ++ '*' :: '/' :: after.toList) (hc : c ≠ '*' ∧ c ≠ '/')
    (hcs : ∀ d ∈ cs, d ≠ '*' ∧ d ≠ '/') :
    EndsBefore (opening ++ text ++ closing ++ rest) (after ++ rest) ↔ StaysOpen text.toList := by
  have htext : (opening ++ text ++ closing ++ rest).toList =
      '/' :: '*' :: (('*' :: c :: (text.toList ++ cs)) ++ '*' :: '/' :: (after ++ rest).toList) := by
    simp [hopen, hclose]
  rw [endsBefore_iff htext, staysOpen_cons, staysOpen_cons, staysOpen_append_inert hcs]
  simp [hc.1, hc.2]

end

theorem endsBefore_lineComment (s rest : String) :
    EndsBefore (lineComment s ++ rest) ("\n" ++ rest) ↔ StaysOpen (stripTags false s.toList) := by
  rw [← staysOpen_oneLine]
  exact @endsBefore_around "/** " " */\n" (oneLine s) rest "\n" ' ' [' '] rfl rfl (by decide)
    (by simp)

theorem lineComment_ne_empty (s : String) : lineComment s ≠ "" := by
  intro h
  have := congrArg String.toList h
  rw [lineComment, String.toList_append, String.toList_append] at this
  cases this

theorem endsBefore_lines (lines : List String) (rest : String) :
    EndsBefore ("/**\n" ++ String.intercalate "\n" (lines.map (" * " ++ ·)) ++ "\n */\n" ++ rest)
      ("\n" ++ rest) ↔ ∀ line ∈ lines, StaysOpen line.toList := by
  have hline : ∀ line : String, StaysOpen (" * " ++ line).toList ↔ StaysOpen line.toList := by
    intro line
    rw [String.toList_append]
    show StaysOpen (' ' :: '*' :: ' ' :: line.toList) ↔ _
    rw [staysOpen_cons, staysOpen_cons, staysOpen_cons]
    simp
  rw [endsBefore_around rfl (show _ = ['\n', ' '] ++ '*' :: '/' :: "\n".toList from rfl)
    (by decide) (by simp), String.toList_intercalate,
    staysOpen_intercalate (by simp) (by simp), List.forall_mem_map, List.forall_mem_map]
  simp only [hline]

end Prose

/-! ## Comments of a module -/

def Component.uncommented (c : Component) : String :=
  match c.type with
  | .object .. => "export interface " ++ c.name ++ " " ++ c.type.documented
  | _ => "export type " ++ c.name ++ " = " ++ c.type.documented ++ ";"

def Operation.ResponseAlias.uncommented (a : ResponseAlias) : String :=
  a.name ++ " = " ++ TypeExpr.joined " | " "never" a.members ++ ";"

def Operation.uncommented (op : Operation) : String :=
  op.id ++ ": " ++ op.signature.text ++ ";"

namespace Api

open Prose (EndsBefore StaysOpen stripTags)

/-- The comments around texts of the document end where they are closed. -/
structure CommentsEnd (api : Api) : Prop where
  component : ∀ c ∈ api.components, c.comment ≠ "" →
    EndsBefore c.declaration ("\n" ++ c.uncommented)
  type : ∀ c ∈ api.components, ∀ s, c.type.info.description = some s → s ≠ "" →
    EndsBefore c.type.documented ("\n" ++ c.type.declared)
  response : ∀ op ∈ api.operations, ∀ r ∈ op.responses, ∀ a,
    (Operation.responseAlias r.1 r.2).result = .ok a → a.media ≠ [] →
      EndsBefore a.text ("\nexport type " ++ a.uncommented)
  operation : ∀ op ∈ api.operations, op.remarks ≠ [] →
    EndsBefore op.member ("\n" ++ op.uncommented)

/-- No text of the document that comes into a comment has a closing mark, its tags left out. -/
structure ProseStaysOpen (api : Api) : Prop where
  component : ∀ c ∈ api.components, ∀ s, c.description = some s →
    StaysOpen (stripTags false s.toList)
  response : ∀ op ∈ api.operations, ∀ r ∈ op.responses, ∀ a,
    (Operation.responseAlias r.1 r.2).result = .ok a → ∀ m ∈ a.media, StaysOpen m.toList
  summary : ∀ op ∈ api.operations, StaysOpen (stripTags false op.summary.toList)
  description : ∀ op ∈ api.operations, ∀ s, op.description = some s →
    StaysOpen (stripTags false s.toList)

theorem endsBefore_declaration {c : Component} {s : String} (h : c.comment = Prose.lineComment s) :
    EndsBefore c.declaration ("\n" ++ c.uncommented) ↔ StaysOpen (stripTags false s.toList) := by
  have htext : c.declaration = c.comment ++ c.uncommented := rfl
  rw [htext, h]
  exact Prose.endsBefore_lineComment s c.uncommented

theorem endsBefore_documented {t : TypeExpr} {s : String} (h : t.info.description = some s)
    (hs : s ≠ "") :
    EndsBefore t.documented ("\n" ++ t.declared) ↔ StaysOpen (stripTags false s.toList) := by
  have htext : t.documented = Prose.lineComment s ++ t.declared := by
    unfold TypeExpr.documented
    rw [h]
    dsimp only
    rw [if_neg (by simpa using hs)]
  rw [htext]
  exact Prose.endsBefore_lineComment s t.declared

theorem endsBefore_alias {a : Operation.ResponseAlias} (h : a.media ≠ []) :
    EndsBefore a.text ("\nexport type " ++ a.uncommented) ↔ ∀ m ∈ a.media, StaysOpen m.toList := by
  have htext : a.text = "/** " ++ String.intercalate ", " a.media ++ " */\nexport type " ++
      a.uncommented := by
    unfold Operation.ResponseAlias.text
    rw [if_neg (by simpa using h)]
    simp only [Operation.ResponseAlias.uncommented, String.append_assoc]
  rw [htext, @Prose.endsBefore_around "/** " " */\nexport type " _ _ "\nexport type " ' ' [' '] rfl rfl
    (by decide) (by simp), String.toList_intercalate,
    Prose.staysOpen_intercalate (by simp) (by simp), List.forall_mem_map]

theorem endsBefore_member {op : Operation} (h : op.remarks ≠ []) :
    EndsBefore op.member ("\n" ++ op.uncommented) ↔ ∀ line ∈ op.remarks, StaysOpen line.toList := by
  have htext : op.member = "/**\n" ++ String.intercalate "\n" (op.remarks.map (" * " ++ ·)) ++
      "\n */\n" ++ op.uncommented := by
    unfold Operation.member
    split
    · exact absurd ‹_› h
    · simp only [Operation.uncommented, String.append_assoc]
  rw [htext]
  exact Prose.endsBefore_lines op.remarks op.uncommented

theorem staysOpen_oneLine? (o : Option String) :
    (∀ line ∈ (Prose.oneLine? o).toList, StaysOpen line.toList) ↔
      ∀ s, o = some s → StaysOpen (stripTags false s.toList) := by
  cases o with
  | none => simp [Prose.oneLine?]
  | some s =>
    by_cases hs : s = ""
    · subst hs
      have hopen : StaysOpen (stripTags false "".toList) := Prose.staysOpen_nil
      simpa [Prose.oneLine?] using hopen
    · have hsome : Prose.oneLine? (some s) = some (Prose.oneLine s) := by
        rw [Prose.oneLine?, if_neg (by simpa using hs)]
      simp [hsome, Prose.staysOpen_oneLine]

theorem staysOpen_remarks (op : Operation) :
    (∀ line ∈ op.remarks, StaysOpen line.toList) ↔
      StaysOpen (stripTags false op.summary.toList) ∧
        ∀ s, op.description = some s → StaysOpen (stripTags false s.toList) := by
  rw [Operation.remarks, List.forall_mem_append, staysOpen_oneLine?, staysOpen_oneLine?]
  simp

theorem comment_eq {e : Scalar × Document} {c : Component} (hfrom : c.ReadFrom e) {s : String}
    (hs : c.description = some s) (hne : s ≠ "") :
    c.type.info.description = some s ∨
      c.type.info.description = none ∧ c.comment = Prose.lineComment s := by
  rcases Schema.description_typeAt hfrom.type with h | h
  · refine .inr ⟨h, ?_⟩
    unfold Component.comment
    rw [hs, h]
    dsimp only
    rw [if_neg (by simpa using hne)]
  · rw [← hfrom.description] at h
    exact .inl (h.trans hs)

theorem exists_comment {c : Component} (h : c.comment ≠ "") :
    ∃ s, c.description = some s ∧ c.comment = Prose.lineComment s := by
  unfold Component.comment at h ⊢
  split at h
  · rename_i s hs
    split at h
    · exact absurd rfl h
    · rename_i hcond
      exact ⟨s, hs, if_neg hcond⟩
  · exact absurd rfl h

/-- The comments of a module end where they are closed if and only if none of the texts in them closes
one. -/
theorem commentsEnd_iff {components : Document} {api : Api}
    (h : (Component.collect components).result = .ok api.components) :
    api.CommentsEnd ↔ api.ProseStaysOpen := by
  obtain ⟨hread, _⟩ := Component.readFrom_readEntries h
  -- both texts of an operation stand in one comment
  have hremarks : ∀ op : Operation,
      (op.remarks ≠ [] → EndsBefore op.member ("\n" ++ op.uncommented)) →
      StaysOpen (stripTags false op.summary.toList) ∧
        ∀ s, op.description = some s → StaysOpen (stripTags false s.toList) := by
    intro op hend
    rw [← staysOpen_remarks]
    by_cases hne : op.remarks = []
    · simp [hne]
    · exact (endsBefore_member hne).mp (hend hne)
  constructor
  · intro hend
    refine ⟨fun c hc s hs => ?_, fun op hop r hr a ha => ?_, fun op hop => ?_, fun op hop => ?_⟩
    · obtain ⟨⟨e, _, hfrom⟩, _⟩ := hread c hc
      by_cases hne : s = ""
      · rw [hne]
        exact Prose.staysOpen_nil
      -- a description stands in the type or, where that has none, above the declaration
      rcases comment_eq hfrom hs hne with htype | ⟨_, hcomment⟩
      · exact (endsBefore_documented htype hne).mp (hend.type c hc s htype hne)
      · refine (endsBefore_declaration hcomment).mp (hend.component c hc ?_)
        rw [hcomment]
        exact Prose.lineComment_ne_empty s
    · by_cases hmedia : a.media = []
      · simp [hmedia]
      · exact (endsBefore_alias hmedia).mp (hend.response op hop r hr a ha hmedia)
    · exact (hremarks op (hend.operation op hop)).1
    · exact (hremarks op (hend.operation op hop)).2
  · intro hopen
    refine ⟨fun c hc hne => ?_, fun c hc s htype hne => ?_, fun op hop r hr a ha hmedia => ?_,
      fun op hop hne => ?_⟩
    · obtain ⟨s, hs, hcomment⟩ := exists_comment hne
      exact (endsBefore_declaration hcomment).mpr (hopen.component c hc s hs)
    · obtain ⟨⟨e, _, hfrom⟩, _⟩ := hread c hc
      refine (endsBefore_documented htype hne).mpr (hopen.component c hc s ?_)
      rcases Schema.description_typeAt hfrom.type with h | h
      · rw [htype] at h
        cases h
      · rw [hfrom.description, ← h, htype]
    · exact (endsBefore_alias hmedia).mpr (hopen.response op hop r hr a ha)
    · refine (endsBefore_member hne).mpr ((staysOpen_remarks op).mpr ?_)
      exact ⟨hopen.summary op hop, hopen.description op hop⟩

def taggedSchemas : Document :=
  .ofValue (.map [(.text "schemas", .map [
    (.text "Pet", .map [(.text "type", .scalar (.text "string")),
      (.text "description", .scalar (.text "any *<b></b>/ at all"))])])])

theorem commentsEnd_tagged : ∃ api : Api,
    (Component.collect taggedSchemas).result = .ok api.components ∧
    (api.CommentsEnd ↔ api.ProseStaysOpen) ∧ ¬ api.CommentsEnd := by
  let pet : Component := ⟨"Pet",
    .identifier ⟨some "any *<b></b>/ at all", none, false⟩ "string", some "any *<b></b>/ at all"⟩
  have h : (Component.collect taggedSchemas).result = .ok [pet] := by cbv
  have hiff := @commentsEnd_iff taggedSchemas ⟨[pet], []⟩ h
  refine ⟨⟨[pet], []⟩, h, hiff, fun hend => ?_⟩
  have hopen := (hiff.mp hend).component pet (List.mem_singleton_self _) _ rfl
  exact hopen (by decide)

def wildcardDocument : Document :=
  .ofValue (.map [(.text "paths", .map [(.text "/pets", .map [(.text "get", .map [
    (.text "operationId", .scalar (.text "listPets")),
    (.text "responses", .map [(.text "200", .map [
      (.text "content", .map [(.text "*/*", .map [])])])])])])])])

/-- Nothing else is wrong with the text of the response, so no check of the module tells. -/
theorem not_commentsEnd_wildcard : ∃ op : Operation, ∃ r ∈ op.responses, ∃ a,
    (Operation.collect wildcardDocument false).result = .ok [op] ∧
    (Operation.responseAlias r.1 r.2).result = .ok a ∧ Delimiter.problems a.text = [] ∧
    ¬ (Api.mk [] [op]).CommentsEnd := by
  let blank : Document := wildcardDocument.moveTo .null
  let response : Response := ⟨none, blank, some [("*/*", ⟨blank, blank, blank, blank⟩)]⟩
  let op : Operation :=
    ⟨"listPets", "/pets", "get", "listPets", none, [], none, [("200", response)]⟩
  have hop : (Operation.collect wildcardDocument false).result = .ok [op] := by cbv
  have halias : (Operation.responseAlias "200" response).result =
      .ok ⟨"200", ["*/*"], ["unknown"]⟩ := by cbv
  have hproblems :
      Delimiter.problems (Operation.ResponseAlias.mk "200" ["*/*"] ["unknown"]).text = [] := by cbv
  refine ⟨op, _, List.mem_singleton_self _, _, hop, halias, hproblems, fun hend => ?_⟩
  have hmedia := hend.response op (List.mem_singleton_self _) _ (List.mem_singleton_self _) _ halias
    (List.cons_ne_nil _ _)
  rw [endsBefore_alias (List.cons_ne_nil _ _)] at hmedia
  exact hmedia "*/*" (List.mem_singleton_self _) (by decide)

end Api

end ApiTypes
