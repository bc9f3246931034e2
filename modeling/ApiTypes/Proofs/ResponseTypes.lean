import ApiTypes.Proofs.Declared
import ApiTypes.Proofs.Keyed
import ApiTypes.Proofs.Signatures

/-!
# Types of responses

The namespace of an operation has one alias for each status that its entry in the document declares. The
alias is put together from the types of exactly the media types that the response has mappings for, each
text once.
-/

namespace ApiTypes

/-! ## Texts that are listed once -/

structure ListsOnce (members texts : List String) : Prop where
  nodup : members.Nodup
  mem_iff : ∀ text, text ∈ members ↔ text ∈ texts
  order : members.Pairwise fun a b => texts.idxOf a < texts.idxOf b

theorem pairwise_idxOf_eraseDups (texts : List String) :
    texts.eraseDups.Pairwise fun a b => texts.idxOf a < texts.idxOf b := by
  induction texts using List.reverseRecOn with
  | nil => exact .nil
  | append_singleton ts t ih =>
    have hidx : ∀ a ∈ ts.eraseDups, (ts ++ [t]).idxOf a = ts.idxOf a := fun a ha =>
      List.idxOf_append_of_mem (List.mem_eraseDups.mp ha)
    have hbefore : ts.eraseDups.Pairwise fun a b => (ts ++ [t]).idxOf a < (ts ++ [t]).idxOf b :=
      ih.imp_of_mem fun ha hb h => by rwa [hidx _ ha, hidx _ hb]
    rw [Table.eraseDups_concat]
    split
    · exact hbefore
    · rename_i ht
      refine List.pairwise_append.mpr ⟨hbefore, List.pairwise_singleton _ _, fun a ha b hb => ?_⟩
      have hlast : (ts ++ [t]).idxOf t = ts.length := by
        rw [List.idxOf_append_of_notMem (mt List.mem_eraseDups.mpr ht)]
        simp
      rw [List.mem_singleton.mp hb, hidx a ha, hlast]
      exact List.idxOf_lt_length_of_mem (List.mem_eraseDups.mp ha)

theorem listsOnce_eraseDups (texts : List String) : ListsOnce texts.eraseDups texts :=
  ⟨Table.nodup_eraseDups texts, fun _ => List.mem_eraseDups, pairwise_idxOf_eraseDups texts⟩

/-! ## Texts of types -/

theorem IsTypeName.ne_empty {name : String} (h : IsTypeName name) : name ≠ "" := by
  cases h with
  | primitive h =>
    have hall : ∀ s ∈ TypeExpr.primitives, s ≠ "" := by decide
    exact hall name h
  | openMap => decide
  | @component c _ =>
    intro he
    rw [← String.toList_eq_nil_iff, componentPath_toList] at he
    cases he

namespace TypeExpr

theorem joined_ne_empty {operator empty : String} (h : empty ≠ "") (operands : List String) :
    joined operator empty operands ≠ "" := by
  unfold joined
  dsimp only
  split
  · exact h
  · rename_i hne
    rwa [String.isEmpty_iff] at hne

theorem joined_eq {operator empty : String} {operands : List String} (h : ∃ s ∈ operands, s ≠ "") :
    joined operator empty operands = String.intercalate operator operands := by
  obtain ⟨s, hs, hne⟩ := h
  have htext := @joined_toList String operator empty operands id
    ⟨s, hs, mt String.toList_eq_nil_iff.mp hne⟩
  rw [List.map_id] at htext
  rw [← String.toList_inj, htext, String.toList_intercalate]
  rfl

end TypeExpr

theorem Schema.declared_ne_empty {room : Nat} {depth : Int} {outer : List Nat} {s : Document}
    {t : TypeExpr} (h : (typeAt room depth outer s).result = .ok t) : t.declared ≠ "" := by
  have hnames := hasTypeNames_typeAt h
  cases mapped_typeAt h with
  | any _ => exact (hnames _ _ rfl).ne_empty
  | reference _ => exact (hnames _ _ rfl).ne_empty
  | unopened => exact (hnames _ _ rfl).ne_empty
  | null => exact (hnames _ _ rfl).ne_empty
  | literals _ => exact TypeExpr.joined_ne_empty (by decide) _
  | union _ _ => exact TypeExpr.joined_ne_empty (by decide) _
  | intersection _ _ => exact TypeExpr.joined_ne_empty (by decide) _
  | array _ => simp [TypeExpr.declared]
  | object required _ _ => simp [TypeExpr.ofProperties, TypeExpr.declared]

namespace Operation

/-! ## Declared responses -/

/-- The responses of an entry under the texts of their statuses. Of two with one text the last counts, at
the place of the first. -/
def Entry.declaredResponses (e : Entry) : Table String Document :=
  Table.ofList (((e.operation.field "responses").entries?.getD []).map fun r => (r.1.display, r.2))

def declaredMedia (response : Document) : Table String Document :=
  Table.ofList ((((response.field "content").entries?.getD []).filter fun m =>
    m.2.entries?.isSome).map fun m => (m.1.display, m.2))

/-- The text is that of the type of a media type, of which nothing is known without a schema. -/
inductive Renders (media : Document) : String → Prop
  | unknown : (media.field "schema").isNull = true → Renders media "unknown"
  | mapped {t} : (media.field "schema").isNull = false →
      (Schema.typeOf (media.field "schema")).result = .ok t → t.declaredFault? = none →
      Renders media t.declared

inductive IsAlias (status : String) (media : Table String Document) : String → Prop
  | undefined : media = [] → IsAlias status media ("export type $" ++ status ++ " = undefined;")
  | union {texts members} : media ≠ [] → List.Forall₂ (fun m text => Renders m.2 text) media texts →
      ListsOnce members texts → IsAlias status media
        ("/** " ++ String.intercalate ", " (media.map (·.1)) ++ " */\nexport type $" ++ status ++ " = " ++
          String.intercalate " | " members ++ ";")

theorem Renders.ne_empty {media : Document} {text : String} (h : Renders media text) : text ≠ "" := by
  cases h with
  | unknown _ => decide
  | mapped _ ht _ => exact Schema.declared_ne_empty ht

/-! ## Reading -/

theorem mediaText_eq_ok {media : Document} {text : String} :
    (mediaText (readMedia media)).result = .ok text ↔ Renders media text := by
  have hschema : (readMedia media).schema = media.field "schema" := rfl
  have hmedia : (mediaText (readMedia media)).result = .ok text ↔
      ∃ t, (mediaType (readMedia media)).result = .ok t ∧ t.declaredFault? = none ∧
        t.declared = text := by
    refine Run.bind_eq_ok.trans (exists_congr fun t => and_congr_right fun _ => ?_)
    cases t.declaredFault? with
    | none => simp [Run.written]
    | some fault => simp [Run.written]
  rw [hmedia, mediaType, hschema]
  constructor
  · rintro ⟨t, ht, hfault, rfl⟩
    split at ht
    · rename_i hnull
      cases ht
      exact .unknown hnull
    · rename_i hnull
      exact .mapped (Bool.eq_false_iff.mpr hnull) ht hfault
  · intro h
    cases h with
    | unknown hnull =>
      rw [if_pos hnull]
      exact ⟨_, rfl, rfl, rfl⟩
    | mapped hnull ht hfault =>
      rw [hnull]
      exact ⟨_, ht, hfault, rfl⟩

def readMedias (media : Table String Document) : Table String Media :=
  media.map fun m => (m.1, readMedia m.2)

theorem content_of_readContent {response : Document} {content : Option (Table String Media)}
    (h : (readContent (response.field "content")).result = .ok content) :
    content.getD [] = readMedias (declaredMedia response) := by
  unfold readContent at h
  unfold declaredMedia
  cases hes : (response.field "content").entries? with
  | none =>
    rw [hes] at h
    cases h
    rfl
  | some es =>
    rw [hes] at h
    obtain ⟨media, hmedia, h⟩ := Run.bind_eq_ok.mp h
    cases h
    have hentries : Table.Matches (fun d m => readMedia d = m)
        ((es.filter fun m => m.2.entries?.isSome).map fun m => (m.1.display, m.2)) media := by
      refine List.forall₂_map_left_iff.mpr ((Run.mapM_eq_ok.mp hmedia).imp fun e m hm => ?_)
      obtain ⟨key, hkey, hm⟩ := Run.bind_eq_ok.mp hm
      cases hm
      exact ⟨(Scalar.eq_display_of_written (Run.ofWritten_eq_ok.mp hkey)).symm, rfl⟩
    have hmap := map_congr_forall₂ (f := fun m => (m.1, readMedia m.2)) (g := fun m => m)
      (hentries.ofList.imp fun m m' hm => show (m.1, readMedia m.2) = m' from Prod.ext hm.1 hm.2)
    rw [List.map_id'] at hmap
    exact hmap.symm

theorem matches_readResponses {e : Entry} {responses : Table String Response}
    (h : (readResponses (e.operation.field "responses")).result = .ok responses) :
    Table.Matches (fun d r => r.content.getD [] = readMedias (declaredMedia d))
      e.declaredResponses responses := by
  obtain ⟨rs, hrs, h⟩ := Run.bind_eq_ok.mp h
  cases h
  refine Table.Matches.ofList (List.forall₂_map_left_iff.mpr ((Run.mapM_eq_ok.mp hrs).imp ?_))
  intro e r hr
  obtain ⟨response, hresponse, hr⟩ := Run.bind_eq_ok.mp hr
  obtain ⟨key, hkey, hr⟩ := Run.bind_eq_ok.mp hr
  obtain ⟨content, hcontent, hresponse⟩ := Run.bind_eq_ok.mp hresponse
  cases hr
  cases hresponse
  exact ⟨(Scalar.eq_display_of_written (Run.ofWritten_eq_ok.mp hkey)).symm,
    content_of_readContent hcontent⟩

/-! ## Aliases -/

theorem isAlias_responseAlias {status : String} {media : Table String Document} {r : Response}
    (hcontent : r.content.getD [] = readMedias media) {a : ResponseAlias}
    (h : (responseAlias status r).result = .ok a) : IsAlias status media a.text := by
  obtain ⟨texts, htexts, h⟩ := Run.bind_eq_ok.mp h
  cases h
  rw [hcontent] at htexts ⊢
  have hrenders : List.Forall₂ (fun m text => Renders m.2 text) media texts :=
    (List.forall₂_map_left_iff.mp (Run.mapM_eq_ok.mp htexts)).imp fun _ _ => mediaText_eq_ok.mp
  have hkeys : (readMedias media).map (·.1) = media.map (·.1) := List.map_map
  unfold ResponseAlias.text ResponseAlias.name
  dsimp only
  rw [hkeys]
  by_cases hnil : media = []
  · rw [if_pos (by rw [hnil]; rfl), ← String.append_assoc]
    exact .undefined hnil
  · obtain ⟨m, rest, rfl⟩ := List.exists_cons_of_ne_nil hnil
    have hmember : ∃ text ∈ texts.eraseDups, text ≠ "" := by
      cases hrenders with
      | cons hm _ => exact ⟨_, List.mem_eraseDups.mpr List.mem_cons_self, hm.ne_empty⟩
    rw [if_neg (by simp), TypeExpr.joined_eq hmember, ← String.append_assoc]
    have halias := @IsAlias.union status _ _ _ hnil hrenders (listsOnce_eraseDups texts)
    have hsplit : " */\nexport type $" = " */\nexport type " ++ "$" := rfl
    rwa [hsplit, ← String.append_assoc] at halias

/-! ## Covering -/

/-- What the namespace of an operation has for the responses of its entry, where it is written, which it is
if and only if all types in it have written forms. -/
structure ResponsesCover (e : Entry) (op : Operation) : Prop where
  statuses : (e.declaredResponses.map (·.1)).Nodup
  isOk_iff : (∃ text, (pathNamespace op).result = .ok text) ↔
    (∀ p ∈ op.parameters, p.type.declaredFault? = none) ∧
      (∀ b ∈ op.body, b.type.declaredFault? = none) ∧
      ∀ r ∈ e.declaredResponses, ∀ m ∈ declaredMedia r.2, ∃ text, Renders m.2 text
  aliases : ∀ text, (pathNamespace op).result = .ok text → ∃ lines,
    Within text [op.scope] (namespaceText "Responses" lines) ∧
      List.Forall₂ (fun r line => IsAlias r.1 (declaredMedia r.2) line) e.declaredResponses lines

theorem responsesCover_readEntry {a : String × Entry} {op : Operation}
    (h : (readEntry a).result = .ok op) : ResponsesCover a.2 op := by
  obtain ⟨_, _, _, _, _, hresponses⟩ := readEntry_eq_ok h
  have hmatches := matches_readResponses hresponses
  refine ⟨Table.nodup_keys_ofList _, ?_, fun text htext => ?_⟩
  · have hrenders : ∀ media : Table String Document,
        (∀ m ∈ readMedias media, ∃ s, (mediaText m.2).result = .ok s) ↔
          ∀ m ∈ media, ∃ text, Renders m.2 text := by
      intro media
      simp only [readMedias, List.forall_mem_map, mediaText_eq_ok]
    rw [pathNamespace_isOk_iff]
    refine and_congr_right fun _ => and_congr_right fun _ => (forall_iff_of_forall₂ hmatches ?_).symm
    intro d r _ hdr
    rw [hdr.2, hrenders]
  · obtain ⟨aliases, haliases, rfl⟩ := pathNamespace_eq_ok htext
    refine ⟨aliases.map ResponseAlias.text, .inside (by decide) ?_ (.here _), ?_⟩
    · simp [namespaceParts]
    · refine List.forall₂_map_right_iff.mpr (forall₂_comp ?_ hmatches (Run.mapM_eq_ok.mp haliases))
      intro d r a hdr ha
      rw [hdr.1]
      exact isAlias_responseAlias hdr.2 ha

/-- The operations of a document have aliases for what their entries declare, and any document of JSON has
all its namespaces. -/
theorem responsesCover_collect {d : Document} {keep : Bool} {ops : List Operation}
    (h : (collect d keep).result = .ok ops) :
    List.Forall₂ (fun a op => (readEntry a).result = .ok op ∧ ResponsesCover a.2 op)
      (accepted keep (entriesIn d)) ops ∧
    (d.IsWritableJson → ∀ op ∈ ops, ∃ text, (pathNamespace op).result = .ok text) := by
  refine ⟨(forall₂_collect h).imp fun a op hop => ⟨hop, responsesCover_readEntry hop⟩, ?_⟩
  intro hd op hop
  have htaken := takenFrom_collect Document.hereditary_isWritableJson h fun x hx => hd.inside hx
  exact exists_pathNamespace (htaken op hop)

def variantsDocument : Document :=
  let media (schema : List (Scalar × Value)) : Value := .map [(.text "schema", .map schema)]
  let string := media [(.text "type", .scalar (.text "string"))]
  .ofValue (.map [(.text "paths", .map [(.text "/pets", .map [(.text "get", .map [
    (.text "operationId", .scalar (.text "listPets")), (.text "responses", .map [
      (.text "204", .map [(.text "content", .map [(.text "text/plain", .null)])]),
      (.text "200", .map [(.text "content", .map [(.text "text/plain", string), (.text "bad", .null),
        (.text "json", media [(.text "$ref", .scalar (.text "#/components/schemas/Pet"))]),
        (.text "text/csv", string), (.text "image/png", .map [])])]),
      (.text "default", .scalar (.text "none"))])])])])])

theorem responsesCover_variants : ∃ ops, (collect variantsDocument false).result = .ok ops ∧
    (accepted false (entriesIn variantsDocument)).map (fun a => a.2.declaredResponses.map fun r =>
      (r.1, (declaredMedia r.2).map (·.1))) = [[("204", []),
        ("200", ["text/plain", "json", "text/csv", "image/png"]), ("default", [])]] ∧
    List.Forall₂ (fun a op => (readEntry a).result = .ok op ∧ ResponsesCover a.2 op)
      (accepted false (entriesIn variantsDocument)) ops ∧
    ∀ op ∈ ops, ∃ text, (pathNamespace op).result = .ok text := by
  obtain ⟨ops, h⟩ : ∃ ops, (collect variantsDocument false).result = .ok ops :=
    Run.exists_of_isOk (by decide +kernel)
  have hjson : variantsDocument.IsWritableJson := by decide +kernel
  obtain ⟨hcover, hwritten⟩ := responsesCover_collect h
  exact ⟨ops, h, by decide +kernel, hcover, hwritten hjson⟩

end Operation

end ApiTypes
