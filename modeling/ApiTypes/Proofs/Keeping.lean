import ApiTypes.Proofs.WrittenOperations

/-!
# Keeping operations without an id

What is changed by keeping the operations that have no id of their own. Then all entries are read, and
those of the operations that have an id are the operations that are read otherwise.
-/

namespace ApiTypes

namespace Operation

/-! ## Two runs -/

theorem id?_kept (e : Entry) : e.id? true = some e.idOf := by
  rw [Entry.id?_eq, Bool.or_true, if_pos rfl]

theorem id?_unkept (e : Entry) : e.id? false = if e.hasId then some e.idOf else none := by
  rw [Entry.id?_eq, Bool.or_false]

/-- Of operations that are read from entries, one from each, those whose entry has an id. -/
def namedAmong (entries : List Entry) (ops : List Operation) : List Operation :=
  ((entries.zip ops).filter fun p => p.1.hasId).map (·.2)

theorem exists_entries_of_readEntries {holders : List (String × String)}
    {es : List (Except WriteFault Entry)} {kept : List Operation}
    (h : (readEntries true holders es).result = .ok kept) :
    ∃ entries : List Entry, es = entries.map .ok ∧
      List.Forall₂ (fun e op => (readEntry (e.idOf, e)).result = .ok op) entries kept := by
  induction es generalizing holders kept with
  | nil =>
    cases h
    exact ⟨[], rfl, .nil⟩
  | cons x es ih =>
    obtain ⟨hok, _⟩ := readEntries_eq_ok.mp h
    obtain ⟨e, rfl⟩ := hok x List.mem_cons_self
    rw [readEntries_taken (id?_kept e)] at h
    obtain ⟨op, hop, h⟩ := Run.bind_eq_ok.mp h
    obtain ⟨rest, hrest, h⟩ := Run.bind_eq_ok.mp h
    cases h
    obtain ⟨entries, rfl, hentries⟩ := ih hrest
    exact ⟨e :: entries, rfl, .cons hop hentries⟩

/-- Where they are not, those whose entry has an id are left, whoever held the ids before. -/
theorem readEntries_unkept {entries : List Entry} {kept : List Operation}
    (h : List.Forall₂ (fun e op => (readEntry (e.idOf, e)).result = .ok op) entries kept)
    (holders : List (String × String)) :
    (readEntries false holders (entries.map .ok)).result = .ok (namedAmong entries kept) := by
  induction h generalizing holders with
  | nil => rfl
  | @cons e op entries kept hop _ ih =>
    have hid := id?_unkept e
    rw [List.map_cons, namedAmong, List.zip_cons_cons]
    cases he : e.hasId with
    | false =>
      rw [he, if_neg Bool.false_ne_true] at hid
      rw [readEntries_skipped hid, ih, List.filter_cons_of_neg (by simp [he])]
      rfl
    | true =>
      rw [he, if_pos rfl] at hid
      rw [readEntries_taken hid, List.filter_cons_of_pos (by simp [he])]
      exact Run.bind_eq_ok.mpr ⟨op, hop, Run.bind_eq_ok.mpr ⟨_, ih _, rfl⟩⟩

/-! ## Warnings -/

def WarnsOfIds (n : Notice) : Prop := n.level = .warning → ∃ id, n.isClashOf id = true

theorem warnsOfIds_readEntry (a : String × Entry) : Run.Notes WarnsOfIds (readEntry a) := by
  intro n hn hwarning
  exact absurd ((notes_readEntry a n hn).symm.trans hwarning) (by decide)

theorem warnsOfIds_readEntries (keep : Bool) (holders : List (String × String))
    (es : List (Except WriteFault Entry)) : Run.Notes WarnsOfIds (readEntries keep holders es) := by
  induction es generalizing holders with
  | nil => exact .pure _
  | cons x es ih =>
    cases x with
    | error fault => exact .throw _
    | ok e =>
      have hskipped : WarnsOfIds (.skipped e.label) := fun h => by cases h
      have hclash : ∀ id holder, WarnsOfIds (.idClash id e.label holder) :=
        fun id _ _ => ⟨id, beq_self_eq_true id⟩
      unfold readEntries
      split
      · exact (Run.Notes.tell hskipped).bind fun _ => ih _
      · rename_i id _
        have hrest := (warnsOfIds_readEntry (id, e)).bind fun op =>
          (ih ((id, e.label) :: holders)).bind fun ops => .pure (op :: ops)
        split
        · exact (Run.Notes.tell (hclash id _)).bind fun _ => hrest
        · exact hrest

theorem exists_sublist_of_mem_clashesAlong {id : String} {ops : List Operation} {n : Notice}
    (h : n ∈ clashesAlong id ops) :
    ∃ p q, [p, q].Sublist ops ∧ n = .idClash id q.label p.label := by
  induction ops with
  | nil => cases h
  | cons p ops ih =>
    cases ops with
    | nil => cases h
    | cons q ops =>
      rcases List.mem_cons.mp h with rfl | h
      · exact ⟨p, q, ((List.nil_sublist ops).cons_cons q).cons_cons p, rfl⟩
      · obtain ⟨p', q', hsub, hn⟩ := ih h
        exact ⟨p', q', hsub.cons p, hn⟩

theorem exists_clash_of_warning {keep : Bool} {es : List (Except WriteFault Entry)}
    {ops : List Operation} (h : (readEntries keep [] es).result = .ok ops) :
    ∀ n ∈ (readEntries keep [] es).notices, n.level = .warning →
      ∃ p q, [p, q].Sublist ops ∧ p.id = q.id ∧ n = .idClash q.id q.label p.label := by
  intro n hn hwarning
  obtain ⟨id, hid⟩ := warnsOfIds_readEntries keep [] es n hn hwarning
  have halong : n ∈ clashesAlong id (withId ops id) := by
    have hclashes := @clashes_readEntries keep [] es [] ops (fun _ => rfl) h id
    rw [withId, List.filter_nil, List.getLast?_nil, Option.toList_none, List.nil_append] at hclashes
    rw [← hclashes]
    exact List.mem_filter.mpr ⟨hn, hid⟩
  obtain ⟨p, q, hsub, hn⟩ := exists_sublist_of_mem_clashesAlong halong
  have hids : ∀ x ∈ [p, q], x.id = id := fun x hx =>
    eq_of_beq (List.mem_filter.mp (hsub.subset hx)).2
  have hp : p.id = id := hids p (by simp)
  have hq : q.id = id := hids q (by simp)
  exact ⟨p, q, hsub.trans List.filter_sublist, hp.trans hq.symm, by rw [hn, hq]⟩

/-! ## Operations of a document -/

/-- Where the operations of a document are read with all kept, they are read without, too. Then those are
left, as they were, that have an id with characters, and only of these it is told that they share an id. -/
theorem exists_named_of_collect {d : Document} {kept : List Operation}
    (h : (collect d true).result = .ok kept) : ∃ entries named,
      entriesIn d = entries.map .ok ∧
      List.Forall₂ (fun e op => (readEntry (e.idOf, e)).result = .ok op) entries kept ∧
      (collect d false).result = .ok named ∧ named = namedAmong entries kept ∧
      ∀ n ∈ (collect d false).notices, n.level = .warning →
        ∃ p q, [p, q].Sublist named ∧ p.id = q.id ∧ n = .idClash q.id q.label p.label := by
  have hnamed := collect_eq_readEntries h false
  rw [collect_eq_readEntries h true] at h
  obtain ⟨entries, hentries, hreads⟩ := exists_entries_of_readEntries h
  have hread := readEntries_unkept hreads []
  rw [← hentries] at hread
  refine ⟨entries, _, hentries, hreads, hnamed ▸ hread, rfl, ?_⟩
  rw [hnamed]
  exact exists_clash_of_warning hread

def partlyNamedDocument : Document :=
  let withId (id : Scalar) : Value := .map [(.text "operationId", .scalar id)]
  .ofValue (.map [(.text "paths", .map [
    (.text "/pets", .map [(.text "get", .map []), (.text "post", withId (.text "getPets")),
      (.text "parameters", .seq [])]),
    (.text "/all", .map [(.text "PUT", withId (.text "")), (.text "get", withId (.text "getPets")),
      (.text "delete", withId (.int 5)), (.text "patch", withId (.text "all pets"))])])])

theorem exists_named_partlyNamed : ∃ kept named,
    (collect partlyNamedDocument true).result = .ok kept ∧
    kept.map (·.id) = ["getPets", "getPets", "putAll", "getPets", "deleteAll", "all_pets"] ∧
    (collect partlyNamedDocument false).result = .ok named ∧
    named.map (·.label) = ["POST /pets", "GET /all", "PATCH /all"] := by
  obtain ⟨kept, h⟩ : ∃ kept, (collect partlyNamedDocument true).result = .ok kept :=
    Run.exists_of_isOk (by decide +kernel)
  obtain ⟨entries, named, _, _, hnamed, _, _⟩ := exists_named_of_collect h
  have hids : (collect partlyNamedDocument true).result.map (fun ops => ops.map (·.id)) =
    .ok ["getPets", "getPets", "putAll", "getPets", "deleteAll", "all_pets"] := by decide +kernel
  have hlabels : (collect partlyNamedDocument false).result.map (fun ops => ops.map (·.label)) =
    .ok ["POST /pets", "GET /all", "PATCH /all"] := by decide +kernel
  rw [h] at hids
  rw [hnamed] at hlabels
  exact ⟨kept, named, h, Except.ok.inj hids, hnamed, Except.ok.inj hlabels⟩

end Operation

end ApiTypes
