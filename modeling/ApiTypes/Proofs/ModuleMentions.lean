import ApiTypes.Typings
import ApiTypes.Proofs.Closing
import ApiTypes.Proofs.ComponentNames
import ApiTypes.Proofs.Declarations
import ApiTypes.Proofs.OperationNames
import ApiTypes.Proofs.TypeMentions

/-!
# Mentions in modules

A module mentions the components that its types mention, their root aliases and, where it has
validators, their constants. Descriptions and names of media types stand in comments, so this holds of a
whole module as far as its comments end where they are closed.
-/

namespace ApiTypes

open Lexeme (Spells never isWordChar isNameChar)

/-! ## Comments -/

namespace Lexeme

theorem scan_behindClose? {cs rest : List Char} :
    (Prose.behindClose? cs = some rest → scan .blockComment cs = scan .code rest) ∧
      (Prose.behindClose? ('*' :: cs) = some rest → scan .asterisk cs = scan .code rest) := by
  induction cs with
  | nil =>
    constructor
    · intro h
      cases h
    · intro h
      cases h
  | cons c cs ih =>
    constructor
    · intro h
      rw [scan, step]
      by_cases hc : c = '*'
      · subst hc
        exact ih.2 h
      · rw [Prose.behindClose?, if_neg fun hclose => hc hclose.1] at h
        rw [if_neg (by simpa using hc)]
        exact ih.1 h
    · intro h
      rw [scan, step]
      by_cases hc : c = '/'
      · subst hc
        cases h
        rfl
      · rw [Prose.behindClose?, if_neg fun hclose => hc (by simpa using hclose.2)] at h
        rw [if_neg (by simpa using hc)]
        -- a run of asterisks may still close
        by_cases hstar : c = '*'
        · subst hstar
          exact ih.2 h
        · rw [Prose.behindClose?, if_neg fun hclose => hstar hclose.1] at h
          rw [if_neg (by simpa using hstar)]
          exact ih.1 h

theorem ofText_of_endsBefore {text rest : String} (h : Prose.EndsBefore text rest) :
    ofText text = ofText rest := by
  obtain ⟨cs, htext, hclose⟩ := h
  rw [ofText, htext]
  exact scan_behindClose?.1 hclose

end Lexeme

namespace Resolved

variable {D : String → Prop} {s : String}

theorem of_endsBefore (h : ∀ rest, Prose.EndsBefore (s ++ rest) ("\n" ++ rest)) :
    Resolved D never s := by
  refine ⟨[], fun rest _ => ?_, .nil⟩
  have hskip := Lexeme.ofText_of_endsBefore (h (String.ofList rest))
  rw [Lexeme.ofText, Lexeme.ofText, String.toList_append, String.toList_append,
    String.toList_ofList] at hskip
  exact hskip

theorem lineComment (h : Prose.StaysOpen (Prose.stripTags false s.toList)) :
    Resolved D never (Prose.lineComment s) :=
  of_endsBefore fun rest => (Prose.endsBefore_lineComment s rest).mpr h

theorem line (h : Resolved D isWordChar s) : Resolved D (· != '\n') s := by
  refine h.mono fun c hc => ?_
  rw [bne_iff_ne]
  rintro rfl
  cases hc

/-! ## Names -/

theorem name (h : ∀ c ∈ s.toList, isNameChar c = true) : Resolved D isWordChar s := by
  by_cases hne : s = ""
  · rw [hne]
    exact .empty
  · exact .word h hne

theorem spells_members {cs : List Char} {ls : List Lexeme} (h : Spells isNameChar cs ls)
    {names : List String} (hnames : ∀ n ∈ names, ∀ c ∈ n.toList, isNameChar c = true) :
    Spells isNameChar (cs ++ names.flatMap fun n => '.' :: n.toList)
      (ls ++ names.map fun n => .word ('.' :: n.toList)) := by
  induction names generalizing cs ls with
  | nil => simpa using h
  | cons n names ih =>
    obtain ⟨hn, hnames⟩ := List.forall_mem_cons.mp hnames
    have hnext := h.append (.member hn) (by intro c hc; cases hc; decide) (by simp)
    have hall := ih hnext hnames
    rw [List.append_assoc, List.append_assoc] at hall
    exact hall

theorem dotted {first : String} {names : List String} (hfirst : Lexeme.isName first.toList = true)
    (hne : first ≠ "Components") (hnames : ∀ n ∈ names, ∀ c ∈ n.toList, isNameChar c = true)
    (hs : s.toList = first.toList ++ names.flatMap fun n => '.' :: n.toList) :
    Resolved D isWordChar s := by
  have hspells := spells_members (.name hfirst) hnames
  rw [← hs] at hspells
  have hhead : first.toList ≠ ".Schemas".toList := by
    intro heq
    rw [heq] at hfirst
    exact absurd hfirst (by decide)
  have hresolved : Resolved D isNameChar s := by
    refine ⟨_, hspells, .of_ne ?_ (List.forall_mem_cons.mpr ⟨?_, List.forall_mem_map.mpr ?_⟩)⟩
    · simpa [Lexeme.scopeEnd] using hhead
    · exact fun heq => hne (String.toList_inj.mp (Lexeme.word.inj heq))
    · intro n _ heq
      cases Lexeme.word.inj heq
  exact hresolved.word_of_name

end Resolved

/-! ## Components -/

namespace Component

variable {D E : String → Prop} {c : Component} {cs : List Component}

theorem resolved_documented (htype : Resolved D isWordChar c.type.declared)
    (hprose : ∀ s, c.type.info.description = some s →
      Prose.StaysOpen (Prose.stripTags false s.toList)) :
    Resolved D isWordChar c.type.documented := by
  unfold TypeExpr.documented
  split
  · exact htype
  · rename_i s hs
    split
    · exact htype
    · exact (Resolved.lineComment (hprose s hs)).append htype

theorem resolved_declaration (hname : ∀ d ∈ c.name.toList, isNameChar d = true)
    (htype : Resolved D isWordChar c.type.declared)
    (htold : ∀ s, c.type.info.description = some s → Prose.StaysOpen (Prose.stripTags false s.toList))
    (hprose : ∀ s, c.description = some s → Prose.StaysOpen (Prose.stripTags false s.toList)) :
    Resolved D isWordChar c.declaration := by
  have hcomment : Resolved D never c.comment := by
    by_cases hne : c.comment = ""
    · rw [hne]
      exact .empty
    · obtain ⟨s, hs, hcomment⟩ := Api.exists_comment hne
      rw [hcomment]
      exact .lineComment (hprose s hs)
  refine hcomment.append ?_
  have htext := resolved_documented htype htold
  split
  · have hopen : Resolved D never "export interface " := .fixed rfl
    have hspace : Resolved D never " " := .fixed rfl
    exact ((hopen.append (.name hname)).before hspace rfl).append htext
  · have hopen : Resolved D never "export type " := .fixed rfl
    have hequals : Resolved D never " = " := .fixed rfl
    have hend : Resolved D never ";" := .fixed rfl
    exact ((((hopen.append (.name hname)).before hequals rfl).append htext).before hend rfl).weaken

theorem resolved_rootAlias (hname : ∀ d ∈ c.name.toList, isNameChar d = true) (hD : D c.name) :
    Resolved D never c.rootAlias := by
  have hopen : Resolved D never "export type " := .fixed rfl
  have hequals : Resolved D never " = " := .fixed rfl
  have hend : Resolved D never ";" := .fixed rfl
  have hpath := (Resolved.path hname hD).word_of_name
  exact (((hopen.append (.name hname)).before hequals rfl).append hpath).before hend rfl

theorem resolved_rootAliases (hnames : ∀ c ∈ cs, ∀ d ∈ c.name.toList, isNameChar d = true)
    (hD : ∀ c ∈ cs, D c.name) :
    Resolved D never (String.intercalate "\n" (cs.map rootAlias)) := by
  have hbreak : Resolved D never "\n" := .fixed rfl
  exact hbreak.intercalate rfl (List.forall_mem_map.mpr fun c hc =>
    resolved_rootAlias (hnames c hc) (hD c hc))

theorem resolved_validatorsText (hnames : ∀ c ∈ cs, c.HasNames) (hD : ∀ c ∈ cs, c.type.Refers D) :
    Resolved (TypeExpr.IsConstantOf D) never (validatorsText cs) := by
  have hbreak : Resolved (TypeExpr.IsConstantOf D) never "\n\n" := .fixed rfl
  refine hbreak.intercalate rfl (List.forall_mem_map.mpr fun v hv => ?_)
  obtain ⟨g, hg, hv⟩ := List.mem_flatMap.mp hv
  obtain ⟨c, hc, rfl⟩ := List.mem_map.mp hv
  have hmem := mem_of_mem_groups hg hc
  have hopen : Resolved (TypeExpr.IsConstantOf D) never "export const " := .fixed rfl
  have htype : Resolved (TypeExpr.IsConstantOf D) never ": z.ZodType<any> = " := .fixed rfl
  have hend : Resolved (TypeExpr.IsConstantOf D) never ";" := .fixed rfl
  have hname : Resolved (TypeExpr.IsConstantOf D) isWordChar (TypeExpr.validatorName c.name) :=
    .name (constantName_names (hnames c hmem)).1
  have hvalidator := TypeExpr.resolved_validator (g.map (·.name)) (hnames c hmem).2 (hD c hmem)
  exact (((hopen.append hname).before htype rfl).append hvalidator).before hend rfl

end Component

/-! ## Operations -/

namespace Operation

inductive Writes (op : Operation) : TypeExpr → Prop
  | parameter {p} : p ∈ op.parameters → Writes op p.type
  | body {b} : op.body = some b → Writes op b.type
  | media {r m t} : r ∈ op.responses → m ∈ r.2.content.getD [] → (mediaType m.2).result = .ok t →
      Writes op t

/-- The texts of the document that an operation takes over as they are stay where they are put. -/
structure StaysInPlace (op : Operation) : Prop where
  status : ∀ r ∈ op.responses, ∀ c ∈ r.1.toList, isNameChar c = true
  media : ∀ r ∈ op.responses, ∀ a, (responseAlias r.1 r.2).result = .ok a →
    ∀ m ∈ a.media, Prose.StaysOpen m.toList
  remarks : ∀ line ∈ op.remarks, Prose.StaysOpen line.toList

theorem responseAlias_eq_ok {r : String × Response} {a : ResponseAlias}
    (h : (responseAlias r.1 r.2).result = .ok a) : a.status = r.1 ∧
      ∀ text ∈ a.members, ∃ m ∈ r.2.content.getD [], ∃ t, (mediaType m.2).result = .ok t ∧
        text = t.declared := by
  obtain ⟨texts, htexts, h⟩ := Run.bind_eq_ok.mp h
  cases h
  refine ⟨rfl, fun text htext => ?_⟩
  have hall : ∀ text ∈ texts, ∃ m ∈ r.2.content.getD [], ∃ t, (mediaType m.2).result = .ok t ∧
      text = t.declared := by
    refine forall_of_forall₂_imp (p := (· ∈ r.2.content.getD [])) ?_ fun _ hm => hm
    refine (Run.mapM_eq_ok.mp htexts).imp fun m text htext hm => ?_
    obtain ⟨t, ht, htext⟩ := Run.bind_eq_ok.mp htext
    exact ⟨m, hm, t, ht, (Run.written_eq_ok htext).symm⟩
  exact hall text (List.mem_eraseDups.mp htext)

section
variable {D : String → Prop} {op : Operation} (hnames : op.HasNames) (hplace : op.StaysInPlace)
  (htypes : ∀ t, op.Writes t → Resolved D isWordChar t.declared)

theorem isNameChar_alias {status : String} (h : ∀ c ∈ status.toList, isNameChar c = true) :
    ∀ c ∈ ("$" ++ status).toList, isNameChar c = true := by
  rw [String.toList_append]
  exact List.forall_mem_append.mpr ⟨List.all_eq_true.mp rfl, h⟩

include hplace htypes in
theorem resolved_responseAlias {r : String × Response} (hr : r ∈ op.responses) {a : ResponseAlias}
    (h : (responseAlias r.1 r.2).result = .ok a) : Resolved D never a.text := by
  obtain ⟨hstatus, hmembers⟩ := responseAlias_eq_ok h
  have hname : Resolved D isWordChar a.name := by
    rw [ResponseAlias.name, hstatus]
    exact .name (isNameChar_alias (hplace.status r hr))
  have hopen : Resolved D never "export type " := .fixed rfl
  have hequals : Resolved D never " = " := .fixed rfl
  have hend : Resolved D never ";" := .fixed rfl
  unfold ResponseAlias.text
  split
  · exact (hopen.append hname).before (.fixed rfl) rfl
  · have hcomment : Resolved D never ("/** " ++ String.intercalate ", " a.media ++ " */\n") := by
      refine .of_endsBefore fun rest => (@Prose.endsBefore_around "/** " " */\n" _ rest "\n" ' ' [' ']
        rfl rfl (by decide) (by simp)).mpr ?_
      rw [String.toList_intercalate, Prose.staysOpen_intercalate (by simp) (by simp),
        List.forall_mem_map]
      exact hplace.media r hr a h
    have hjoined : Resolved D isWordChar (TypeExpr.joined " | " "never" a.members) := by
      refine TypeExpr.resolved_joined rfl rfl rfl fun text htext => ?_
      obtain ⟨m, hm, t, ht, rfl⟩ := hmembers text htext
      exact htypes t (.media hr hm ht)
    have hall := (((hcomment.append (hopen.append hname)).before hequals rfl).append hjoined).before
      hend rfl
    have hsplit : " */\nexport type " = " */\n" ++ "export type " := rfl
    rw [hsplit]
    simpa only [String.append_assoc] using hall

/-! ### Parameters -/

include hnames htypes in
theorem resolved_parameterAliases {ps : List Parameter} (hps : ∀ p ∈ ps, p ∈ op.parameters) :
    ∀ a ∈ Parameter.aliases ps, Resolved D never a.text := by
  intro a ha
  obtain ⟨e, he, rfl⟩ := List.mem_map.mp ha
  have hentry : ∀ e ∈ Table.group (ps.map fun p => (p.aliasName, p.name, p.type.declared)),
      ∀ k ∈ e.2, (∀ c ∈ e.1.toList, isNameChar c = true) ∧ Resolved D isWordChar k.2 := by
    refine @Table.forall_group _ _ _ _ (fun (name : String) (k : String × String) =>
      (∀ c ∈ name.toList, isNameChar c = true) ∧ Resolved D isWordChar k.2) _ ?_
    refine List.forall_mem_map.mpr fun p hp => ?_
    exact ⟨hnames.isNameChar_aliasName (hps p hp), htypes _ (.parameter (hps p hp))⟩
  -- grouping keeps the names and types it was given
  have hkeys : ∀ k ∈ Table.ofListNew e.2, (∀ c ∈ e.1.toList, isNameChar c = true) ∧
      Resolved D isWordChar k.2 := Table.forall_ofListNew (hentry e he)
  have hequals : Resolved D never " = " := .fixed rfl
  have hend : Resolved D never ";" := .fixed rfl
  unfold Parameter.Alias.text
  dsimp only
  split
  · exact .empty
  · rename_i first declared rest hfirst
    obtain ⟨hname, hdeclared⟩ := hkeys (first, declared) (hfirst ▸ List.mem_cons_self)
    split
    · have hopen : Resolved D never "export type " := .fixed rfl
      exact (((hopen.append (.name hname)).before hequals rfl).append hdeclared).before hend rfl
    · have hopen : Resolved D never "export interface " := .fixed rfl
      have hbrace : Resolved D never " \x7b\n" := .fixed rfl
      have hbreak : Resolved D never "\n" := .fixed rfl
      have hfields : Resolved D never (String.intercalate "\n" ((Table.ofListNew e.2).map
          fun k => "    " ++ Text.quoted k.1 ++ ": " ++ k.2 ++ ";")) := by
        refine hbreak.intercalate rfl (List.forall_mem_map.mpr fun k hk => ?_)
        have hindent : Resolved D never "    " := .fixed rfl
        have hcolon : Resolved D never ": " := .fixed rfl
        have hkey := (hindent.append (.quoted k.1)).append hcolon
        exact (hkey.append (hkeys k hk).2).before hend rfl
      exact (((hopen.append (.name hname)).before hbrace rfl).append hfields).append (.fixed rfl)

include hnames in
theorem resolved_field {p : Parameter} (hp : p ∈ op.parameters) : Resolved D never p.field := by
  have hindent : Resolved D never "    " := .fixed rfl
  have hend : Resolved D never ";" := .fixed rfl
  have hmark : Resolved D never ((if p.required then "" else "?") ++ ": ") := by
    split
    · exact .fixed rfl
    · exact .fixed rfl
  have hkey := (hindent.append (.propertyKey p.name)).before hmark (by split <;> rfl)
  have hpath : Resolved D isWordChar ("Parameters." ++ p.aliasName) := by
    refine @Resolved.dotted D _ "Parameters" [p.aliasName] rfl (by decide) ?_ (by simp)
    simpa using hnames.isNameChar_aliasName hp
  have hreference : Resolved D isWordChar p.reference := by
    unfold Parameter.reference
    split
    · rwa [String.append_empty]
    · have hopen : Resolved D never "[" := .fixed rfl
      have hclose : Resolved D never "]" := .fixed rfl
      have hindex := (hopen.append (.quoted p.name)).append hclose
      exact (hpath.before hindex (by rw [String.append_assoc, String.toList_append]; rfl)).weaken
  have hall := (hkey.append hreference).before hend rfl
  rwa [← String.append_assoc] at hall

include hnames in
theorem resolved_recordText {name : String} (hname : ∀ c ∈ name.toList, isNameChar c = true)
    {ps : List Parameter} (hps : ∀ p ∈ ps, p ∈ op.parameters) :
    Resolved D never (Parameter.recordText name ps) := by
  have hopen : Resolved D never "export interface " := .fixed rfl
  have hbrace : Resolved D never " \x7b\n" := .fixed rfl
  have hbreak : Resolved D never "\n" := .fixed rfl
  have hfields : Resolved D never (String.intercalate "\n" (ps.map Parameter.field)) :=
    hbreak.intercalate rfl (List.forall_mem_map.mpr fun p hp => resolved_field hnames (hps p hp))
  exact (((hopen.append (.name hname)).before hbrace rfl).append hfields).append (.fixed rfl)

theorem mem_parameterRecords {r : String × List Parameter} (h : r ∈ op.parameterRecords) :
    r.1 ∈ ["PathParameters", "QueryParameters", "HeaderParameters", "CookieParameters"] ∧
      ∀ p ∈ r.2, p ∈ op.parameters := by
  have hat : ∀ l, ∀ p ∈ op.parametersAt l, p ∈ op.parameters := fun l p => mem_of_mem_parametersAt
  have hoptional : ∀ {name : String} {l : Location}, r ∈ (if (op.parametersAt l).isEmpty then []
      else [(name, op.parametersAt l)]) → r = (name, op.parametersAt l) := by
    intro name l hr
    split at hr
    · cases hr
    · exact List.mem_singleton.mp hr
  unfold parameterRecords at h
  dsimp only at h
  rw [List.mem_append, List.mem_append, List.mem_cons, List.mem_singleton] at h
  rcases h with ((rfl | rfl) | h) | h
  · exact ⟨by simp, hat _⟩
  · exact ⟨by simp, hat _⟩
  · rw [hoptional h]
    exact ⟨by simp, hat _⟩
  · rw [hoptional h]
    exact ⟨by simp, hat _⟩

/-! ### Namespaces -/

theorem resolved_namespaceText {name : String} (hname : ∀ c ∈ name.toList, isNameChar c = true)
    {lines : List String} (h : ∀ line ∈ lines, Resolved D never line) :
    Resolved D never (namespaceText name lines) := by
  have hopen : Resolved D never "export namespace " := .fixed rfl
  have hbrace : Resolved D never " \x7b\n" := .fixed rfl
  have hbreak : Resolved D never "\n" := .fixed rfl
  exact (((hopen.append (.name hname)).before hbrace rfl).append (hbreak.intercalate rfl h)).append
    (.fixed rfl)

include hnames hplace htypes in
theorem resolved_pathNamespace {s : String} (h : (pathNamespace op).result = .ok s) :
    Resolved D never s := by
  obtain ⟨aliases, haliases, h⟩ := Run.bind_eq_ok.mp h
  obtain ⟨body, hbody, h⟩ := Run.bind_eq_ok.mp h
  obtain ⟨responses, hresponses, h⟩ := Run.bind_eq_ok.mp h
  cases Run.written_eq_ok haliases
  cases Run.written_eq_ok hbody
  cases h
  have hall : ∀ p ∈ op.allParameters, p ∈ op.parameters := fun p => mem_of_mem_allParameters
  have hbody : Resolved D never ("export type RequestBody = " ++ op.bodyText ++ ";") := by
    have htext : Resolved D isWordChar op.bodyText := by
      unfold bodyText
      split
      · rename_i b hb
        exact htypes _ (.body hb)
      · exact .fixedWord rfl
    exact htext.between rfl rfl rfl
  have haliases : Resolved D never (namespaceText "Parameters"
      ((Parameter.aliases op.allParameters).map Parameter.Alias.text)) :=
    resolved_namespaceText (List.all_eq_true.mp rfl)
      (List.forall_mem_map.mpr (resolved_parameterAliases hnames htypes hall))
  have hrecords : ∀ r ∈ op.parameterRecords, Resolved D never (Parameter.recordText r.1 r.2) := by
    intro r hr
    obtain ⟨hname, hps⟩ := mem_parameterRecords hr
    have hchars : ∀ name ∈ ["PathParameters", "QueryParameters", "HeaderParameters",
        "CookieParameters"], ∀ c ∈ name.toList, isNameChar c = true := by
      simp [isNameChar]
    exact resolved_recordText hnames (hchars _ hname) hps
  have hresponses : Resolved D never (namespaceText "Responses"
      (responses.map ResponseAlias.text)) := by
    refine resolved_namespaceText (List.all_eq_true.mp rfl) (List.forall_mem_map.mpr ?_)
    refine forall_of_forall₂_imp (p := (· ∈ op.responses)) ?_ fun _ hr => hr
    exact (Run.mapM_eq_ok.mp hresponses).imp fun r a ha hr =>
      resolved_responseAlias hplace htypes hr ha
  have hopen : Resolved D never "export namespace " := .fixed rfl
  have hbrace : Resolved D never " \x7b\n" := .fixed rfl
  have hbreak : Resolved D never "\n\n" := .fixed rfl
  -- body, parameters, records and responses, with a break between them
  have hparts := hbreak.intercalate rfl (List.forall_mem_append.mpr
    ⟨List.forall_mem_append.mpr ⟨List.forall_mem_cons.mpr ⟨hbody, List.forall_mem_singleton.mpr
      haliases⟩, List.forall_mem_map.mpr hrecords⟩, List.forall_mem_singleton.mpr hresponses⟩)
  exact (((hopen.append (.name hnames.isNameChar_scope)).before hbrace rfl).append hparts).append
    (.fixed rfl)

/-! ### Calls -/

include hnames in
theorem resolved_inScope {name : String} (names : List String)
    (h : ∀ n ∈ names, ∀ c ∈ n.toList, isNameChar c = true)
    (hname : '.' :: name.toList = names.flatMap fun n => '.' :: n.toList) :
    Resolved D isWordChar ("Paths." ++ op.scope ++ "." ++ name) := by
  refine @Resolved.dotted D _ "Paths" (op.scope :: names) rfl (by decide)
    (List.forall_mem_cons.mpr ⟨hnames.isNameChar_scope, h⟩) ?_
  simp [← hname]

theorem mem_of_mem_records {r : String} (h : r ∈ op.signature.records) :
    r ∈ ["PathParameters", "QueryParameters"] := by
  unfold signature at h
  dsimp only at h
  rcases List.mem_append.mp h with h | h
  · split at h
    · cases h
    · exact List.mem_cons.mpr (.inl (List.mem_singleton.mp h))
  · split at h
    · cases h
    · exact List.mem_cons_of_mem _ h

include hnames in
theorem resolved_recordName {r : String} (h : r ∈ op.signature.records) :
    Resolved D isWordChar ("Paths." ++ op.scope ++ "." ++ r) := by
  have hfixed : ∀ r ∈ ["PathParameters", "QueryParameters"], ∀ c ∈ r.toList,
      isNameChar c = true := by simp [isNameChar]
  refine resolved_inScope hnames [r] ?_ (by simp)
  exact List.forall_mem_singleton.mpr (hfixed r (mem_of_mem_records h))

include hnames hplace in
theorem resolved_status {status : String} (h : op.signature.status = some status) :
    Resolved D isWordChar ("Paths." ++ op.scope ++ "." ++ ("Responses.$" ++ status)) := by
  obtain ⟨r, hr, rfl⟩ := Option.map_eq_some_iff.mp h
  refine resolved_inScope hnames ["Responses", "$" ++ r.1] ?_ (by simp)
  refine List.forall_mem_cons.mpr ⟨List.all_eq_true.mp rfl, List.forall_mem_singleton.mpr ?_⟩
  exact isNameChar_alias (hplace.status r (List.mem_of_mem_head? hr))

include hnames hplace in
theorem resolved_signature : Resolved D never op.signature.text := by
  have hdata : Resolved D isWordChar (if op.signature.hasBody then
      "Paths." ++ op.scope ++ "." ++ "RequestBody" else "undefined") := by
    split
    · exact resolved_inScope hnames ["RequestBody"] (by simp [isNameChar]) rfl
    · exact .fixedWord rfl
  -- the fixed parts of a signature resolve by evaluation
  have hall : ∀ {parameters response : String}, Resolved D isWordChar parameters →
      Resolved D isWordChar response → Resolved D never ("(parameters?: " ++ parameters ++
        ", data?: " ++ (if op.signature.hasBody then
          "Paths." ++ op.scope ++ "." ++ "RequestBody" else "undefined") ++
        ", config?: AxiosRequestConfig) => OperationResponse<" ++ response ++ ">") := by
    intro parameters response hparameters hresponse
    have hopen : Resolved D never "(parameters?: " := .fixed rfl
    have hsecond : Resolved D never ", data?: " := .fixed rfl
    have hthird : Resolved D never ", config?: AxiosRequestConfig) => OperationResponse<" := .fixed rfl
    have hend : Resolved D never ">" := .fixed rfl
    have hfirst := ((hopen.append hparameters).before hsecond rfl).append hdata
    exact ((hfirst.before hthird rfl).append hresponse).before hend rfl
  unfold Signature.text
  refine hall ?_ ?_
  · split
    · exact .fixedWord rfl
    · have hand : Resolved D never " & " := .fixed rfl
      have hrecords := List.forall_mem_map.mpr fun r hr => @resolved_recordName D op hnames r hr
      exact ((hand.intercalate rfl hrecords).between rfl rfl rfl).weaken
  · split
    · exact resolved_status hnames hplace ‹_›
    · exact .fixedWord rfl

include hnames hplace in
theorem resolved_member : Resolved D never op.member := by
  have hid : ∀ c ∈ op.id.toList, isNameChar c = true :=
    fun c hc => Schema.isNameChar_of_isWordChar (hnames.isWordChar_id c hc)
  have hcolon : Resolved D never ": " := .fixed rfl
  have hall : ∀ {comment : String}, Resolved D never comment →
      Resolved D never (comment ++ op.id ++ ": " ++ op.signature.text ++ ";") := by
    intro comment hcomment
    have hname := (hcomment.append (.name hid)).before hcolon rfl
    exact (hname.append (resolved_signature hnames hplace)).append (.fixed rfl)
  unfold member
  refine hall ?_
  split
  · exact .empty
  · exact .of_endsBefore fun rest => (Prose.endsBefore_lines op.remarks rest).mpr hplace.remarks

include hnames hplace in
theorem resolved_pathMember : Resolved D never op.pathMember := by
  have hindent : Resolved D never "  " := .fixed rfl
  have hcolon : Resolved D never ": " := .fixed rfl
  have hmethod := (hindent.append (.name hnames.isNameChar_method)).before hcolon rfl
  exact (hmethod.append (resolved_signature hnames hplace)).append (.fixed rfl)

end

/-! ### Blocks -/

section
variable {D : String → Prop} {ops : List Operation} (hnames : ∀ op ∈ ops, op.HasNames)
include hnames

theorem resolved_pathsText (hplace : ∀ op ∈ ops, op.StaysInPlace)
    (htypes : ∀ op ∈ ops, ∀ t, op.Writes t → Resolved D isWordChar t.declared) {s : String}
    (h : (pathsText ops).result = .ok s) : Resolved D never s := by
  obtain ⟨parts, hparts, h⟩ := Run.bind_eq_ok.mp h
  cases h
  have hall : ∀ part ∈ parts, Resolved D never part := by
    refine forall_of_forall₂_imp (p := (· ∈ ops)) ?_ fun _ hop => hop
    exact (Run.mapM_eq_ok.mp hparts).imp fun op part hpart hop =>
      resolved_pathNamespace (hnames op hop) (hplace op hop) (htypes op hop) hpart
  have hbreak : Resolved D never "\n\n" := .fixed rfl
  exact (hbreak.intercalate rfl hall).between rfl rfl rfl

theorem resolved_methodsText (hplace : ∀ op ∈ ops, op.StaysInPlace) :
    Resolved D never (methodsText ops) := by
  have hbreak : Resolved D never "\n" := .fixed rfl
  have hmembers := hbreak.intercalate rfl (List.forall_mem_map.mpr fun op hop =>
    resolved_member (hnames op hop) (hplace op hop))
  exact hmembers.between rfl rfl rfl

theorem resolved_dictionaryText (hplace : ∀ op ∈ ops, op.StaysInPlace) :
    Resolved D never (dictionaryText ops) := by
  have hbreak : Resolved D never "\n" := .fixed rfl
  have hgroups : ∀ e ∈ byPath ops, ∀ op ∈ e.2, op ∈ ops :=
    @Table.forall_group _ _ _ _ (fun _ op => op ∈ ops) _ (List.forall_mem_map.mpr fun _ hop => hop)
  have hentries : ∀ e ∈ byPath ops, Resolved D never (pathEntry e.1 e.2) := by
    intro e he
    have hindent : Resolved D never "  " := .fixed rfl
    have hopen : Resolved D never ": \x7b\n" := .fixed rfl
    have hmembers := hbreak.intercalate rfl (List.forall_mem_map.mpr fun op hop =>
      resolved_pathMember (hnames op (hgroups e he op hop)) (hplace op (hgroups e he op hop)))
    exact (((hindent.append (.quoted e.1)).append hopen).append hmembers).append (.fixed rfl)
  exact (hbreak.intercalate rfl (List.forall_mem_map.mpr hentries)).between rfl rfl rfl

theorem resolved_validatorTableText
    (hD : ∀ op ∈ ops, ∀ name, op.successComponent? = some name → D name) :
    Resolved (TypeExpr.IsConstantOf D) isWordChar (validatorTableText ops) := by
  have hrow : ∀ row ∈ validatorTable ops, (∀ c ∈ row.1.toList, isNameChar c = true) ∧
      Resolved (TypeExpr.IsConstantOf D) isWordChar row.2 := by
    refine @Table.forall_ofList String String _ _ (fun row =>
      (∀ c ∈ row.1.toList, isNameChar c = true) ∧
        Resolved (TypeExpr.IsConstantOf D) isWordChar row.2) _ (List.forall_mem_map.mpr fun op hop => ?_)
    refine ⟨fun c hc => Schema.isNameChar_of_isWordChar ((hnames op hop).isWordChar_id c hc), ?_⟩
    dsimp only
    unfold responseValidator
    split
    · rename_i name hname
      have hchars : ∀ c ∈ name.toList, isNameChar c = true := by
        obtain ⟨_, _, _, _, _, _, rfl⟩ := exists_of_successComponent? hname
        exact fun c hc => Schema.isNameChar_of_isWordChar (Schema.isWordChar_sanitize _ c hc)
      exact (TypeExpr.resolved_constant hchars (hD op hop name hname)).word_of_name
    · exact .fixedWord rfl
  have hcolon : Resolved (TypeExpr.IsConstantOf D) never ": " := .fixed rfl
  have hend : Resolved (TypeExpr.IsConstantOf D) never "," := .fixed rfl
  have hbreak : Resolved (TypeExpr.IsConstantOf D) never "\n" := .fixed rfl
  have hopen : Resolved (TypeExpr.IsConstantOf D) never
      "export const apiResponseValidators = \x7b\n" := .fixed rfl
  refine (hopen.append (hbreak.intercalate rfl (List.forall_mem_map.mpr fun row hr => ?_))).append
    (.fixedWord rfl)
  obtain ⟨hname, hvalidator⟩ := hrow row hr
  exact (((Resolved.name hname).before hcolon rfl).append hvalidator).before hend rfl

end

end Operation

/-! ## Whole modules -/

namespace Api

inductive Writes (api : Api) : TypeExpr → Prop
  | component {c} : c ∈ api.components → Writes api c.type
  | operation {op t} : op ∈ Operation.lastPerId api.operations → op.Writes t → Writes api t

structure Closed (D : String → Prop) (api : Api) : Prop where
  component : ∀ c ∈ api.components, D c.name
  type : ∀ t, api.Writes t → t.HasTypeNames ∧ t.Refers D
  success : ∀ op ∈ Operation.lastPerId api.operations, ∀ name,
    op.successComponent? = some name → D name

structure StaysInPlace (api : Api) : Prop where
  prose : api.ProseStaysOpen
  status : ∀ op ∈ api.operations, ∀ r ∈ op.responses, ∀ c ∈ r.1.toList, isNameChar c = true

theorem StaysInPlace.operation {api : Api} (h : api.StaysInPlace) {op : Operation}
    (hop : op ∈ api.operations) : op.StaysInPlace where
  status := h.status op hop
  media := h.prose.response op hop
  remarks := (staysOpen_remarks op).mpr ⟨h.prose.summary op hop, h.prose.description op hop⟩

def Declares (D : String → Prop) (validators : Bool) (name : String) : Prop :=
  D name ∨ validators = true ∧ TypeExpr.IsConstantOf D name

section
variable {D : String → Prop} {api : Api}

theorem resolved_declarationsText (hfrom : ∀ c ∈ api.components, ∃ e, Component.ReadFrom e c)
    (hclosed : api.Closed D) (hplace : api.StaysInPlace) (validators : Bool) :
    Resolved (Declares D validators) never (Component.declarationsText api.components validators) := by
  have hnames : ∀ c ∈ api.components, c.HasNames := by
    intro c hc
    obtain ⟨e, he⟩ := hfrom c hc
    exact Component.hasNames_readFrom he
  have hvalidators : Resolved (Declares D validators) never
      (if validators then Component.validatorsText api.components else "") := by
    split
    · rename_i hvalidators
      exact (Component.resolved_validatorsText hnames fun c hc =>
        (hclosed.type _ (.component hc)).2).imp fun _ h => .inr ⟨hvalidators, h⟩
    · exact .empty
  have hdeclaration : ∀ c ∈ api.components,
      Resolved (Declares D validators) isWordChar c.declaration := by
    intro c hc
    obtain ⟨hnames, hrefers⟩ := hclosed.type _ (.component hc)
    obtain ⟨e, he⟩ := hfrom c hc
    have htype := (TypeExpr.resolved_declared hnames hrefers).imp (E := Declares D validators)
      fun _ => .inl
    refine Component.resolved_declaration (Component.hasNames_readFrom he).1 htype ?_
      (hplace.prose.component c hc)
    -- a type that has a description has the one of its component
    intro s hs
    rcases Schema.description_typeAt he.type with hnone | hsame
    · rw [hnone] at hs
      cases hs
    · exact hplace.prose.component c hc s (by rw [he.description, ← hsame, hs])
  have haliases := (Component.resolved_rootAliases (fun c hc => (hnames c hc).1)
    hclosed.component).imp (E := Declares D validators) fun _ => .inl
  have hopen : Resolved (Declares D validators) never
      "export namespace Components \x7b\nexport namespace Schemas \x7b\n" := .fixed rfl
  have hbreak : Resolved (Declares D validators) never "\n\n" := .fixed rfl
  have hend : Resolved (Declares D validators) never "\n\x7d\n\x7d\n\n" := .fixed rfl
  have hdeclarations := hbreak.intercalate rfl (List.forall_mem_map.mpr hdeclaration)
  exact ((((hopen.append hvalidators).append hbreak).append hdeclarations).before hend rfl).append
    haliases

theorem resolved_notice : Resolved D (· != '\n') noticeText := by
  refine ⟨[], fun rest hrest => ?_, .nil⟩
  cases rest with
  | nil => rfl
  | cons c rest =>
    have hc : c = '\n' := by simpa using hrest c rfl
    rw [hc]
    rfl

theorem resolved_tailText : Resolved D isWordChar tailText := by
  have hbreak : Resolved D never "\n" := .fixed rfl
  refine hbreak.intercalate rfl fun line hline => ?_
  have hinert : Lexeme.isInert line = true ∨ Lexeme.isInertWord line = true := by
    revert line
    decide +kernel
  rcases hinert with h | h
  · exact (Resolved.fixed h).weaken
  · exact .fixedWord h

/-- A module mentions nothing but what it declares, as far as no text of the document breaks out of its
place. -/
theorem resolved_typings (hfrom : ∀ c ∈ api.components, ∃ e, Component.ReadFrom e c)
    (hnames : ∀ op ∈ api.operations, op.HasNames) (hclosed : api.Closed D)
    (hplace : api.StaysInPlace) {validators : Bool} {text : String}
    (h : (api.typings validators).result = .ok text) : Resolved (Declares D validators) never text := by
  obtain ⟨_, _, h⟩ := Run.bind_eq_ok.mp h
  obtain ⟨components, hcomponents, h⟩ := Run.bind_eq_ok.mp h
  obtain ⟨paths, hpaths, h⟩ := Run.bind_eq_ok.mp h
  cases Run.written_eq_ok hcomponents
  cases h
  have hmem := fun op hop => @Operation.mem_of_mem_lastPerId api.operations op hop
  have hnames := fun op hop => hnames op (hmem op hop)
  have hstays := fun op hop => hplace.operation (hmem op hop)
  have hpaths : Resolved (Declares D validators) never paths := by
    refine (Operation.resolved_pathsText hnames hstays (fun op hop t ht => ?_) hpaths).imp
      fun _ => .inl
    obtain ⟨hnames, hrefers⟩ := hclosed.type t (.operation hop ht)
    exact TypeExpr.resolved_declared hnames hrefers
  have htable : Resolved (Declares D validators) isWordChar (if validators then
      Operation.validatorTableText (Operation.lastPerId api.operations) else "") := by
    split
    · rename_i hvalidators
      exact (Operation.resolved_validatorTableText hnames hclosed.success).imp
        fun _ h => .inr ⟨hvalidators, h⟩
    · exact .empty
  have himport : Resolved (Declares D validators) never
      (if validators then validatorImport else "") := by
    split
    · exact .fixed rfl
    · exact .empty
  have hhead : Resolved (Declares D validators) never headText := .fixed rfl
  have hbreak : Resolved (Declares D validators) never "\n\n" := .fixed rfl
  have hend : Resolved (Declares D validators) never "\n" := .fixed rfl
  refine (hbreak.intercalate (p := (· != '\n')) rfl fun block hblock => ?_).before hend rfl
  have hall := (List.mem_filter.mp hblock).1
  simp only [List.mem_cons, List.not_mem_nil, or_false] at hall
  -- block by block, in the order of the module
  rcases hall with rfl | rfl | rfl | rfl | rfl | rfl | rfl | rfl | rfl
  · exact hhead.weaken
  · exact himport.weaken
  · exact resolved_notice
  · exact (resolved_declarationsText hfrom hclosed hplace validators).weaken
  · exact hpaths.weaken
  · exact (Operation.resolved_methodsText hnames hstays).weaken
  · exact (Operation.resolved_dictionaryText hnames hstays).weaken
  · exact htable.line
  · exact resolved_tailText.line

end

end Api

end ApiTypes
