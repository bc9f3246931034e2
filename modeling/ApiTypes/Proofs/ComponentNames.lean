import ApiTypes.Operation.ResponseValidators
import ApiTypes.Proofs.Collected
import ApiTypes.Proofs.Declared
import ApiTypes.Proofs.Height

/-!
# Names of components

Components have the names that their keys become, each name once, with the schema of its first key; each
key after it is told of in a warning. A reference to a key names the component of that key, in a schema
and in the table of response validators alike.
-/

namespace ApiTypes

/-! ## Notices of schemas -/

/-- The mapper only tells where it does not open a schema. -/
def Notice.IsDebug (n : Notice) : Prop := n.level = .debug

theorem Schema.Layer.notes_build {α : Type} {p : Notice → Prop} {inner : α → Run TypeExpr}
    (h : ∀ part, Run.Notes p (inner part)) (l : Layer α) : Run.Notes p (l.build inner) := by
  cases l with
  | leaf t => exact .pure t
  | union parts => exact (Run.Notes.mapM h parts).bind fun _ => .pure _
  | intersection parts => exact (Run.Notes.mapM h parts).bind fun _ => .pure _
  | array part => exact (h part).bind fun _ => .pure _
  | object info entries required =>
    refine (Run.Notes.mapM (fun e => ?_) entries).bind fun _ => .pure _
    exact (Run.Notes.ofWritten _).bind fun _ => (h e.2).bind fun _ => .pure _

theorem Schema.notes_bounded (depth : Int) (s : Document) :
    Run.Notes Notice.IsDebug (bounded depth s) := by
  have hnotice : (Notice.unopened depth (s.field "type")).IsDebug := rfl
  exact (Run.Notes.tell hnotice).bind fun _ => .pure _

theorem Schema.notes_typeAt (room : Nat) (depth : Int) (outer : List Nat) (s : Document) :
    Run.Notes Notice.IsDebug (typeAt room depth outer s) := by
  induction room generalizing depth outer s with
  | zero =>
    rw [typeAt_eq_layer]
    cases direct? s with
    | some t => exact .pure t
    | none => exact notes_bounded depth s
  | succ room ih =>
    rw [typeAt_eq_layer]
    cases direct? s with
    | some t => exact .pure t
    | none =>
      dsimp only
      split
      · exact notes_bounded depth s
      · exact Layer.notes_build (fun part => ih _ _ part) _

/-! ## Names of keys -/

namespace Component

def keyName (key : Scalar) : String := Name.sanitize (key.text?.getD "")

theorem keyName_of_written {key : Scalar} {text : String} (htext : ∃ k, key = .text k)
    (h : key.written = .ok text) : Name.sanitize text = keyName key := by
  obtain ⟨k, rfl⟩ := htext
  cases h
  rfl

def clashes (keys : List Scalar) : List Notice :=
  (keys.zipIdx.filter fun k => ((keys.take k.2).map keyName).contains (keyName k.1)).map
    fun k => .componentClash k.1 (keyName k.1)

def IsWarning (n : Notice) : Bool := n.level == .warning

theorem names_readEntries {taken : List String} {entries : List (Scalar × Document)}
    {cs : List Component} (h : (readEntries taken entries).result = .ok cs) :
    cs.map (·.name) = (((entries.filterMap fun e => e.1.written.toOption).map Name.sanitize).filter
      fun n => !taken.contains n).eraseDups := by
  have htext : ∀ {key : Scalar} {text : String}, key.written = .ok text →
      key.written.toOption = some text := fun h => h ▸ rfl
  have hreads := readEntries_eq_ok.mp h
  clear h
  induction hreads with
  | nil => rfl
  | skip hkey hname _ ih =>
    rw [List.filterMap_cons, htext hkey, List.map_cons, ih,
      List.filter_cons_of_neg (by simpa using hname)]
  | take hfrom hname _ ih =>
    obtain ⟨key, hkey, hc⟩ := hfrom.name
    rw [List.filterMap_cons, htext hkey, List.map_cons, List.map_cons, ih, ← hc,
      List.filter_cons_of_pos (by simpa using hname), List.eraseDups_cons, List.filter_filter]
    congr 3
    funext n
    rw [List.contains_cons, Bool.not_or, Bool.beq_comm]

section
variable {taken : List String} {entries : List (Scalar × Document)} {cs : List Component}
  (htext : ∀ e ∈ entries, ∃ k, e.1 = .text k)
include htext

theorem first_readEntries (h : (readEntries taken entries).result = .ok cs) :
    ∀ c ∈ cs, c.name ∉ taken ∧
      ∃ e, entries.find? (fun e => keyName e.1 == c.name) = some e ∧ ReadFrom e c := by
  have hreads := readEntries_eq_ok.mp h
  clear h
  induction hreads with
  | nil => simp
  | skip hkey hname _ ih =>
    obtain ⟨he, htext⟩ := List.forall_mem_cons.mp htext
    intro c hc
    obtain ⟨hnew, first, hfirst, hfrom⟩ := ih htext c hc
    refine ⟨hnew, first, ?_, hfrom⟩
    rw [keyName_of_written he hkey] at hname
    rw [List.find?_cons_of_neg, hfirst]
    exact fun heq => hnew (eq_of_beq heq ▸ hname)
  | take hfrom hname _ ih =>
    obtain ⟨he, htext⟩ := List.forall_mem_cons.mp htext
    obtain ⟨key, hkey, hc⟩ := hfrom.name
    rw [keyName_of_written he hkey] at hc
    refine List.forall_mem_cons.mpr ⟨⟨hname, _, ?_, hfrom⟩, fun d hd => ?_⟩
    · exact List.find?_cons_of_pos (beq_iff_eq.mpr hc.symm)
    · obtain ⟨hnew, first, hfirst, hfrom⟩ := ih htext d hd
      rw [List.mem_cons, not_or] at hnew
      refine ⟨hnew.2, first, ?_, hfrom⟩
      rw [List.find?_cons_of_neg, hfirst]
      exact fun heq => hnew.1 ((eq_of_beq heq).symm.trans hc.symm)

end

def IsFirst (entries : List (Scalar × Document)) (e : Scalar × Document) : Prop :=
  entries.find? (fun f => keyName f.1 == keyName e.1) = some e

theorem isFirst_cons {a e : Scalar × Document} {entries : List (Scalar × Document)} :
    IsFirst (a :: entries) e ↔ e = a ∨ keyName a.1 ≠ keyName e.1 ∧ IsFirst entries e := by
  unfold IsFirst
  by_cases hname : keyName a.1 = keyName e.1
  · rw [List.find?_cons, beq_iff_eq.mpr hname, Option.some_inj]
    exact ⟨fun h => .inl h.symm, fun h => h.elim Eq.symm fun h => absurd hname h.1⟩
  · rw [List.find?_cons, beq_eq_false_iff_ne.mpr hname]
    refine ⟨fun h => .inr ⟨hname, h⟩, fun h => h.elim (fun h => ?_) And.right⟩
    exact absurd (h ▸ rfl) hname

section
variable {taken : List String} {entries : List (Scalar × Document)}

theorem exists_readEntries_skip {a : Scalar × Document} (ha : ∃ k, a.1 = .text k)
    (hname : keyName a.1 ∈ taken) : (∃ cs, (readEntries taken (a :: entries)).result = .ok cs) ↔
      ∃ cs, (readEntries taken entries).result = .ok cs := by
  simp only [readEntries_eq_ok]
  constructor
  · rintro ⟨cs, h⟩
    cases h with
    | skip _ _ h => exact ⟨cs, h⟩
    | take hfrom hnew _ =>
      obtain ⟨key, hkey, hc⟩ := hfrom.name
      rw [hc, keyName_of_written ha hkey] at hnew
      exact absurd hname hnew
  · rintro ⟨cs, h⟩
    obtain ⟨k, hk⟩ := ha
    have hkey : a.1.written = .ok k := hk ▸ rfl
    exact ⟨cs, .skip hkey (keyName_of_written ⟨k, hk⟩ hkey ▸ hname) h⟩

theorem exists_readEntries_take {a : Scalar × Document} (ha : ∃ k, a.1 = .text k)
    (hname : keyName a.1 ∉ taken) : (∃ cs, (readEntries taken (a :: entries)).result = .ok cs) ↔
      (∃ t, (Schema.typeOf a.2).result = .ok t) ∧
        ∃ cs, (readEntries (keyName a.1 :: taken) entries).result = .ok cs := by
  simp only [readEntries_eq_ok]
  constructor
  · rintro ⟨cs, h⟩
    cases h with
    | skip hkey hold _ =>
      rw [keyName_of_written ha hkey] at hold
      exact absurd hold hname
    | @take _ _ _ c cs hfrom _ h =>
      obtain ⟨key, hkey, hc⟩ := hfrom.name
      rw [keyName_of_written ha hkey] at hc
      exact ⟨⟨_, hfrom.type⟩, cs, hc ▸ h⟩
  · rintro ⟨⟨t, ht⟩, cs, h⟩
    obtain ⟨k, hk⟩ := ha
    have hkey : a.1.written = .ok k := hk ▸ rfl
    have hsame := keyName_of_written ⟨k, hk⟩ hkey
    exact ⟨_, .take (c := ⟨keyName a.1, t, _⟩) ⟨⟨k, hkey, hsame.symm⟩, ht, rfl⟩ hname h⟩

theorem exists_readEntries_iff (htext : ∀ e ∈ entries, ∃ k, e.1 = .text k) :
    (∃ cs, (readEntries taken entries).result = .ok cs) ↔ ∀ e, IsFirst entries e →
      keyName e.1 ∉ taken → ∃ t, (Schema.typeOf e.2).result = .ok t := by
  induction entries generalizing taken with
  | nil => exact iff_of_true ⟨[], rfl⟩ fun e he => nomatch he
  | cons a entries ih =>
    obtain ⟨ha, htext⟩ := List.forall_mem_cons.mp htext
    simp only [isFirst_cons, forall_eq_or_imp]
    by_cases hname : keyName a.1 ∈ taken
    · rw [exists_readEntries_skip ha hname, ih htext]
      refine ⟨fun h => ⟨fun hnew => absurd hname hnew, fun e he => h e he.2⟩, fun h e he hnew => ?_⟩
      exact h.2 e ⟨fun hsame => hnew (hsame ▸ hname), he⟩ hnew
    · rw [exists_readEntries_take ha hname, ih htext]
      refine and_congr ⟨fun h _ => h, fun h => h hname⟩ (forall_congr' fun e => ?_)
      rw [List.mem_cons, not_or, and_imp, and_comm]
      exact ⟨fun h he hnew => h he.1 (Ne.symm he.2) hnew,
        fun h he hne hnew => h ⟨he, Ne.symm hne⟩ hnew⟩

theorem readEntries_eq_error (htext : ∀ e ∈ entries, ∃ k, e.1 = .text k) {f : Failure}
    (h : (readEntries taken entries).result = .error f) : f = .unwritable .tooLong := by
  induction entries generalizing taken with
  | nil => cases h
  | cons e entries ih =>
    obtain ⟨⟨k, hk⟩, htext⟩ := List.forall_mem_cons.mp htext
    rw [readEntries] at h
    rcases Run.bind_eq_error.mp h with h | ⟨key, _, h⟩
    · rw [hk] at h
      cases h
    dsimp only at h
    split at h
    · rcases Run.bind_eq_error.mp h with h | ⟨_, _, h⟩
      · cases h
      · exact ih htext h
    · rcases Run.bind_eq_error.mp h with h | ⟨t, _, h⟩
      · exact Schema.Call.eq_tooLong_of_error ⟨0, [], e.2⟩ h
      rcases Run.bind_eq_error.mp h with h | ⟨_, _, h⟩
      · exact ih htext h
      · cases h

end

def clashesAfter (before after : List Scalar) : List Notice :=
  ((after.zipIdx before.length).filter fun k =>
    (((before ++ after).take k.2).map keyName).contains (keyName k.1)).map
      fun k => .componentClash k.1 (keyName k.1)

theorem clashesAfter_cons (before : List Scalar) (key : Scalar) (after : List Scalar) :
    clashesAfter before (key :: after) =
      (if keyName key ∈ before.map keyName then [.componentClash key (keyName key)] else []) ++
        clashesAfter (before ++ [key]) after := by
  have hhead : (before ++ key :: after).take before.length = before := List.take_left
  have hrest : clashesAfter (before ++ [key]) after =
      ((after.zipIdx (before.length + 1)).filter fun k =>
        (((before ++ key :: after).take k.2).map keyName).contains (keyName k.1)).map
          fun k => .componentClash k.1 (keyName k.1) := by
    rw [clashesAfter, List.append_assoc, List.singleton_append, List.length_append,
      List.length_singleton]
  rw [clashesAfter, List.zipIdx_cons, List.filter_cons, hrest]
  dsimp only
  rw [hhead]
  by_cases hkey : keyName key ∈ before.map keyName
  · rw [if_pos (List.contains_iff_mem.mpr hkey), if_pos hkey]
    rfl
  · rw [if_neg (mt List.contains_iff_mem.mp hkey), if_neg hkey]
    rfl

theorem notices_readEntries_skip {taken : List String} {e : Scalar × Document}
    {entries : List (Scalar × Document)} {key : String} (hkey : e.1.written = .ok key)
    (hname : Name.sanitize key ∈ taken) : (readEntries taken (e :: entries)).notices =
      .componentClash e.1 (Name.sanitize key) :: (readEntries taken entries).notices := by
  rw [readEntries, Run.notices_bind (Run.ofWritten_eq_ok.mpr hkey), Run.notices_ofWritten]
  dsimp only
  rw [if_pos (List.contains_iff_mem.mpr hname), Run.notices_bind (Run.result_tell _)]
  rfl

theorem notices_readEntries_take {taken : List String} {e : Scalar × Document}
    {entries : List (Scalar × Document)} {c : Component} {cs : List Component} (hfrom : ReadFrom e c)
    (hname : c.name ∉ taken) (h : (readEntries (c.name :: taken) entries).result = .ok cs) :
    (readEntries taken (e :: entries)).notices =
      (Schema.typeOf e.2).notices ++ (readEntries (c.name :: taken) entries).notices := by
  obtain ⟨key, hkey, hc⟩ := hfrom.name
  rw [hc] at hname h ⊢
  rw [readEntries, Run.notices_bind (Run.ofWritten_eq_ok.mpr hkey), Run.notices_ofWritten]
  dsimp only
  rw [if_neg (mt List.contains_iff_mem.mp hname), Run.notices_bind hfrom.type, Run.notices_bind h,
    Run.notices_pure, List.append_nil, List.nil_append]

theorem filter_isWarning_typeOf (s : Document) : (Schema.typeOf s).notices.filter IsWarning = [] := by
  rw [List.filter_eq_nil_iff]
  intro n hn hwarning
  have hdebug : n.level = .debug := Schema.notes_typeAt _ _ _ _ n hn
  rw [IsWarning, hdebug] at hwarning
  cases hwarning

theorem warnings_readEntries {before : List Scalar} {taken : List String}
    {entries : List (Scalar × Document)} {cs : List Component}
    (htext : ∀ e ∈ entries, ∃ k, e.1 = .text k)
    (htaken : ∀ n, n ∈ taken ↔ n ∈ before.map keyName)
    (h : (readEntries taken entries).result = .ok cs) :
    (readEntries taken entries).notices.filter IsWarning =
      clashesAfter before (entries.map (·.1)) := by
  have hreads := readEntries_eq_ok.mp h
  clear h
  induction hreads generalizing before with
  | nil => rfl
  | @skip taken e entries cs key hkey hname _ ih =>
    obtain ⟨he, htext⟩ := List.forall_mem_cons.mp htext
    rw [notices_readEntries_skip hkey hname, List.map_cons, clashesAfter_cons]
    rw [keyName_of_written he hkey] at hname ⊢
    have hclash := (htaken _).mp hname
    have hbefore : ∀ n, n ∈ taken ↔ n ∈ (before ++ [e.1]).map keyName := by
      intro n
      rw [htaken, List.map_append, List.mem_append, List.map_singleton, List.mem_singleton]
      exact ⟨.inl, fun hn => hn.elim id fun heq => heq ▸ hclash⟩
    rw [List.filter_cons_of_pos rfl, ih htext hbefore, if_pos hclash]
    rfl
  | @take taken e entries c cs hfrom hname hreads ih =>
    obtain ⟨he, htext⟩ := List.forall_mem_cons.mp htext
    rw [notices_readEntries_take hfrom hname (readEntries_eq_ok.mpr hreads), List.map_cons,
      clashesAfter_cons, List.filter_append, filter_isWarning_typeOf]
    obtain ⟨key, hkey, hc⟩ := hfrom.name
    rw [keyName_of_written he hkey] at hc
    have hbefore : ∀ n, n ∈ c.name :: taken ↔ n ∈ (before ++ [e.1]).map keyName := by
      intro n
      rw [List.mem_cons, htaken, hc, List.map_append, List.mem_append, List.map_singleton,
        List.mem_singleton, or_comm]
    rw [ih htext hbefore, if_neg (mt (htaken _).mpr (hc ▸ hname))]

def schemaEntries (components : Document) : List (Scalar × Document) :=
  ((components.field "schemas").entries?).getD []

theorem collect_eq (components : Document) :
    collect components = readEntries [] (schemaEntries components) := rfl

/-- What components are, what they are read from and what is warned of, if their keys are texts. -/
structure Registered (components : Document) (cs : List Component) : Prop where
  names : cs.map (·.name) = ((schemaEntries components).map fun e => keyName e.1).eraseDups
  nodup : (cs.map (·.name)).Nodup
  first : ∀ c ∈ cs, ∃ e, (schemaEntries components).find? (fun e => keyName e.1 == c.name) = some e ∧
    ReadFrom e c
  warnings : (collect components).notices.filter IsWarning =
    clashes ((schemaEntries components).map (·.1))

section
variable {components : Document} {cs : List Component}
  (htext : ∀ e ∈ schemaEntries components, ∃ k, e.1 = .text k)
include htext

theorem registered_collect (h : (collect components).result = .ok cs) :
    Registered components cs := by
  have hread := h
  rw [collect_eq] at hread
  have hall : ∀ n ∈ (schemaEntries components).map fun e => keyName e.1,
      (!([] : List String).contains n) = true := fun _ _ => rfl
  have hnone : ∀ n, n ∈ ([] : List String) ↔ n ∈ ([] : List Scalar).map keyName := fun _ => Iff.rfl
  have hkeys : ((schemaEntries components).filterMap fun e => e.1.written.toOption).map
      Name.sanitize = (schemaEntries components).map fun e => keyName e.1 := by
    rw [List.map_filterMap, ← List.filterMap_eq_map]
    refine List.filterMap_congr fun e he => ?_
    obtain ⟨k, hk⟩ := htext e he
    rw [Function.comp_apply, keyName, hk]
    rfl
  refine ⟨?_, (readFrom_readEntries hread).2,
    fun c hc => (first_readEntries htext hread c hc).2, ?_⟩
  · rw [names_readEntries hread, hkeys, List.filter_eq_self.mpr hall]
  · rw [collect_eq]
    exact warnings_readEntries htext hnone hread

theorem mem_names_collect (h : (collect components).result = .ok cs) {e : Scalar × Document}
    (he : e ∈ schemaEntries components) : keyName e.1 ∈ cs.map (·.name) := by
  rw [(registered_collect htext h).names, List.mem_eraseDups]
  exact List.mem_map_of_mem he

theorem exists_collect_iff : (∃ cs, (collect components).result = .ok cs) ↔
    ∀ e, IsFirst (schemaEntries components) e → (Schema.Call.mk 0 [] e.2).KeysFit := by
  rw [collect_eq, exists_readEntries_iff htext]
  refine forall_congr' fun e => imp_congr_right fun _ => ?_
  rw [← Schema.Call.exists_result_iff]
  exact ⟨fun h => h List.not_mem_nil, fun h _ => h⟩

theorem collect_eq_error {f : Failure} (h : (collect components).result = .error f) :
    f = .unwritable .tooLong :=
  readEntries_eq_error htext h

end

end Component

/-! ## References -/

theorem Name.lastSegment_append {key : String} (hne : key ≠ "") (hslash : '/' ∉ key.toList)
    (front : String) : lastSegment (front ++ "/" ++ key) = key := by
  have hkey : ∀ c ∈ key.toList, (c == '/') = false := by
    intro c hc
    rw [beq_eq_false_iff_ne]
    rintro rfl
    exact hslash hc
  have hlast : (Text.pieces (· == '/') (front ++ "/" ++ key).toList).getLast? =
      some key.toList := by
    have htext : (front ++ "/" ++ key).toList = front.toList ++ '/' :: key.toList := by simp
    rw [htext, Text.pieces_append_cons rfl, Text.pieces_of_forall hkey, List.getLast?_append]
    rfl
  unfold lastSegment
  rw [hlast]
  have hnil : key.toList ≠ [] := mt String.toList_eq_nil_iff.mp hne
  have hback := String.ofList_toList (s := key)
  generalize key.toList = cs at hnil hback
  cases cs with
  | nil => exact absurd rfl hnil
  | cons c cs => exact hback

theorem Schema.typeAt_reference {s : Document} {ref : String} (h : s.fieldText? "$ref" = some ref)
    (room : Nat) (depth : Int) (outer : List Nat) :
    typeAt room depth outer s = pure (referenceType ref) := by
  have hs : ¬ s.entries?.isNone = true := by
    intro hnone
    rw [Option.isNone_iff_eq_none] at hnone
    rw [Document.fieldText?, Document.field, Document.field?_of_entries?_eq_none hnone] at h
    cases h
  rw [typeAt_eq_layer, direct?, if_neg hs, h]
  rfl

theorem Operation.successComponent?_eq {op : Operation} {r : String × Response}
    {m : String × Media} {rest : Table String Media} {ref : String}
    (hr : op.responses.find? (fun r => isSuccess r.1) = some r)
    (hm : r.2.content = some (m :: rest)) (href : m.2.schema.fieldText? "$ref" = some ref) :
    op.successComponent? = some (Name.sanitize (Name.lastSegment ref)) := by
  unfold successComponent?
  rw [hr]
  dsimp only [Option.bind_eq_bind, Option.bind_some]
  rw [hm]
  dsimp only [Option.getD_some, List.head?_cons, Option.bind_some]
  rw [href]
  rfl

theorem Operation.exists_of_successComponent? {op : Operation} {name : String}
    (h : op.successComponent? = some name) : ∃ r ∈ op.responses, ∃ m ∈ r.2.content.getD [], ∃ ref,
      m.2.schema.fieldText? "$ref" = some ref ∧ name = Name.sanitize (Name.lastSegment ref) := by
  obtain ⟨r, hr, h⟩ := Option.bind_eq_some_iff.mp h
  obtain ⟨m, hm, h⟩ := Option.bind_eq_some_iff.mp h
  obtain ⟨ref, href, h⟩ := Option.bind_eq_some_iff.mp h
  cases h
  exact ⟨r, List.mem_of_find?_eq_some hr, m, List.mem_of_mem_head? hm, ref, href, rfl⟩

end ApiTypes
