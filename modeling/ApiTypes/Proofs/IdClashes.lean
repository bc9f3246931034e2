import ApiTypes.Proofs.ComponentNames
import ApiTypes.Proofs.Keyed

/-!
# Operations with one id

What becomes of operations that share an id. The reader tells of each but the first, with the one before
it; the list of duplicates has them all; of the list without repeated ids, and of the rows of the table of
validators, only the last one has a part, at the place of the first.
-/

namespace ApiTypes

def Notice.isClashOf (id : String) : Notice → Bool
  | .idClash other .. => other == id
  | _ => false

/-! ## Notices about the parts of an operation -/

namespace Parameter

theorem notes_scalarToCompare {p : Notice → Prop} (d : Document) : Run.Notes p d.scalarToCompare := by
  unfold Document.scalarToCompare
  split
  · exact .throw _
  · split <;> exact .pure _

theorem notes_merge {p : Notice → Prop} (shared own : Document) : Run.Notes p (merge shared own) := by
  have hidentity : ∀ d : Document, Run.Notes p (identity d) := fun d =>
    (notes_scalarToCompare _).bind fun _ => (notes_scalarToCompare _).bind fun _ => .pure _
  have hidentities : ∀ ds : List Document, Run.Notes p (identities ds) := fun ds =>
    .mapM (fun d => (hidentity d).bind fun _ => .pure _) _
  unfold merge
  split
  · exact .pure _
  · exact .pure _
  · exact (hidentities _).bind fun _ => (hidentities _).bind fun _ => .pure _

theorem notes_read (p : Document) : Run.Notes Notice.IsDebug (read p) := by
  have hnameless : (Notice.nameless p).IsDebug := rfl
  have hlocation : Run.Notes Notice.IsDebug (location? p) := by
    unfold location?
    split
    · exact .pure _
    · exact (notes_scalarToCompare _).bind fun _ => .pure _
  unfold read
  split
  · exact (Run.Notes.tell hnameless).bind fun _ => .pure _
  split
  · exact .pure _
  refine hlocation.bind fun l => ?_
  split
  · exact .pure _
  · exact (Schema.notes_typeAt _ _ _ _).bind fun _ => .pure _

theorem notes_readAll (shared own : Document) : Run.Notes Notice.IsDebug (readAll shared own) :=
  (notes_merge shared own).bind fun _ => (Run.Notes.mapM notes_read _).bind fun _ => .pure _

end Parameter

namespace Operation

theorem notes_readBody (d : Document) : Run.Notes Notice.IsDebug (readBody d) := by
  unfold readBody
  split
  · exact (Run.Notes.ofWritten _).bind fun _ => (Schema.notes_typeAt _ _ _ _).bind fun _ => .pure _
  · exact .pure _

theorem notes_readResponses {p : Notice → Prop} (d : Document) : Run.Notes p (readResponses d) := by
  have hcontent : ∀ d : Document, Run.Notes p (readContent d) := by
    intro d
    unfold readContent
    split
    · exact .pure _
    · exact (Run.Notes.mapM (fun _ => (Run.Notes.ofWritten _).bind fun _ => .pure _) _).bind
        fun _ => .pure _
  have hresponse : ∀ d : Document, Run.Notes p (readResponse d) := fun d =>
    (hcontent _).bind fun _ => .pure _
  refine (Run.Notes.mapM (fun e => ?_) _).bind fun _ => .pure _
  exact (hresponse _).bind fun _ => (Run.Notes.ofWritten _).bind fun _ => .pure _

theorem notes_readEntry (a : String × Entry) : Run.Notes Notice.IsDebug (readEntry a) := by
  have hsummary : ∀ id d, Run.Notes Notice.IsDebug (readSummary id d) := by
    intro id d
    unfold readSummary
    split
    · exact (Run.Notes.ofWritten _).bind fun _ => .pure _
    · exact .pure _
  exact (hsummary _ _).bind fun _ => (Parameter.notes_readAll _ _).bind fun _ =>
    (notes_readBody _).bind fun _ => (notes_readResponses _).bind fun _ => .pure _

/-! ## Operations under an id -/

def withId (ops : List Operation) (id : String) : List Operation := ops.filter fun op => op.id == id

def ids (ops : List Operation) : List String := (ops.map (·.id)).eraseDups

/-- What is told of operations with one id: of each but the first, with the one right before it. -/
def clashesAlong (id : String) (ops : List Operation) : List Notice :=
  ops.zipWith (fun before op => .idClash id op.label before.label) ops.tail

theorem withId_cons (op : Operation) (ops : List Operation) (id : String) :
    withId (op :: ops) id = if op.id == id then op :: withId ops id else withId ops id :=
  List.filter_cons

theorem getLast?_withId_concat (before : List Operation) (op : Operation) (id : String) :
    (withId (before ++ [op]) id).getLast? =
      if op.id == id then some op else (withId before id).getLast? := by
  rw [withId, List.filter_append, ← withId, ← withId, withId_cons]
  split
  · exact List.getLast?_concat
  · exact congrArg _ (List.append_nil _)

section
variable {keep : Bool} {holders : List (String × String)} {e : Entry}
  {es : List (Except WriteFault Entry)}

theorem notices_readEntries_skipped (h : e.id? keep = none) :
    (readEntries keep holders (.ok e :: es)).notices =
      .skipped e.label :: (readEntries keep holders es).notices := by
  rw [readEntries, h]
  rfl

theorem notices_readEntries_taken {id : String} {op : Operation} {ops : List Operation}
    (h : e.id? keep = some id) (hop : (readEntry (id, e)).result = .ok op)
    (hops : (readEntries keep ((id, e.label) :: holders) es).result = .ok ops) :
    (readEntries keep holders (.ok e :: es)).notices =
      (holders.lookup id).toList.map (.idClash id e.label ·) ++ ((readEntry (id, e)).notices ++
        (readEntries keep ((id, e.label) :: holders) es).notices) := by
  have hread : (do
      let op ← readEntry (id, e)
      let ops ← readEntries keep ((id, e.label) :: holders) es
      pure (op :: ops) : Run (List Operation)).notices = (readEntry (id, e)).notices ++
        (readEntries keep ((id, e.label) :: holders) es).notices := by
    rw [Run.notices_bind hop, Run.notices_bind hops, Run.notices_pure, List.append_nil]
  rw [← hread, readEntries, h]
  dsimp only
  split
  · rename_i holder hholder
    rw [hholder, Run.notices_bind (Run.result_tell _)]
    rfl
  · rename_i hholder
    rw [hholder]
    rfl

/-- What is told of an id behind the operations `before`, whose last holders are listed: each operation
that is read is told of with the one before it. -/
theorem clashes_readEntries {before ops : List Operation}
    (hholders : ∀ id, holders.lookup id = (withId before id).getLast?.map label)
    (h : (readEntries keep holders es).result = .ok ops) (id : String) :
    (readEntries keep holders es).notices.filter (Notice.isClashOf id) =
      clashesAlong id ((withId before id).getLast?.toList ++ withId ops id) := by
  induction es generalizing holders before ops with
  | nil =>
    cases h
    cases (withId before id).getLast? <;> rfl
  | cons x es ih =>
    obtain ⟨hok, _⟩ := readEntries_eq_ok.mp h
    obtain ⟨e, rfl⟩ := hok x List.mem_cons_self
    cases hid : e.id? keep with
    | none =>
      rw [readEntries_skipped hid] at h
      rw [notices_readEntries_skipped hid, List.filter_cons_of_neg (by simp [Notice.isClashOf]),
        ih hholders h]
    | some i =>
      rw [readEntries_taken hid] at h
      obtain ⟨op, hop, h⟩ := Run.bind_eq_ok.mp h
      obtain ⟨rest, hrest, h⟩ := Run.bind_eq_ok.mp h
      cases h
      obtain ⟨hi, hpath, hmethod, _⟩ := readEntry_eq_ok hop
      have hlabel : e.label = op.label := by rw [Entry.label, ← hpath, ← hmethod, label]
      -- reading an entry gives debug notes only
      have hquiet : (readEntry (i, e)).notices.filter (Notice.isClashOf id) = [] := by
        rw [List.filter_eq_nil_iff]
        intro n hn hclash
        have hdebug : n.level = .debug := notes_readEntry _ n hn
        unfold Notice.isClashOf at hclash
        split at hclash
        · cases hdebug
        · cases hclash
      -- the table of holders knows the last operation of each id
      have hnext : ∀ j, ((i, e.label) :: holders).lookup j =
          (withId (before ++ [op]) j).getLast?.map label := by
        intro j
        rw [getLast?_withId_concat, hi, hlabel, List.lookup_cons, hholders, Bool.beq_comm]
        cases hj : i == j <;> rfl
      rw [notices_readEntries_taken hid hop hrest, List.filter_append, List.filter_append, hquiet,
        ih hnext hrest, hholders, getLast?_withId_concat, withId_cons, hi, hlabel]
      -- a clash under another id is filtered away
      by_cases hsame : i = id
      · subst hsame
        simp only [beq_self_eq_true, if_true]
        cases (withId before i).getLast? with
        | none => rfl
        | some b =>
          have htold : [Notice.idClash i op.label b.label].filter (Notice.isClashOf i) =
              [.idClash i op.label b.label] :=
            List.filter_cons_of_pos (beq_self_eq_true i)
          show [Notice.idClash i op.label b.label].filter (Notice.isClashOf i) ++ _ = _
          rw [htold]
          rfl
      · have hother : (i == id) = false := beq_eq_false_iff_ne.mpr hsame
        have huntold : (((withId before i).getLast?.map label).toList.map
            (.idClash i op.label ·)).filter (Notice.isClashOf id) = [] := by
          rw [List.filter_eq_nil_iff, List.forall_mem_map]
          exact fun _ _ => by rw [Notice.isClashOf, hother]; decide
        rw [huntold, hother]
        rfl

end

/-! ## Lists and tables by id -/

theorem validatorTable_of_nodup {ops : List Operation} (h : (ops.map (·.id)).Nodup) :
    validatorTable ops = ops.map fun op => (op.id, op.responseValidator) := by
  refine Table.ofList_of_nodup ?_
  rwa [List.map_map]

end Operation

end ApiTypes
