import ApiTypes.Yaml.Reader

/-!
# Filling the cells of a graph

What holds at the start of the filling and is kept by each of its steps holds at its end, and what
stops it is the fault of a step.
-/

namespace ApiTypes.Yaml

/-! ## Results -/

/-- What a reading may come to: results of one kind or faults of another. -/
structure Yields {α : Type} (P : α → Prop) (Q : Fault → Prop) (x : Except Fault α) : Prop where
  ok : ∀ a, x = .ok a → P a
  error : ∀ e, x = .error e → Q e

namespace Yields

variable {α β : Type} {P : α → Prop} {Q : Fault → Prop}

theorem pure {a : α} (h : P a) : Yields P Q (.ok a) := ⟨by rintro _ ⟨⟩; exact h, nofun⟩

theorem throw {e : Fault} (h : Q e) : Yields P Q (.error e) := ⟨nofun, by rintro _ ⟨⟩; exact h⟩

theorem bind {x : Except Fault α} {f : α → Except Fault β} {R : β → Prop} (hx : Yields P Q x)
    (hf : ∀ a, P a → Yields R Q (f a)) : Yields R Q (x >>= f) := by
  cases x with
  | ok a => exact hf a (hx.ok a rfl)
  | error e => exact throw (hx.error e rfl)

theorem foldlM {f : α → β → Except Fault α} {bs : List β}
    (hf : ∀ b ∈ bs, ∀ a, P a → Yields P Q (f a b)) {a : α} (ha : P a) :
    Yields P Q (bs.foldlM f a) := by
  induction bs generalizing a with
  | nil => exact pure ha
  | cons b bs ih =>
    obtain ⟨hb, hbs⟩ := List.forall_mem_cons.mp hf
    rw [List.foldlM_cons]
    exact (hb a ha).bind fun _ h => ih hbs h

end Yields

namespace Fill

/-! ## Invariants -/

/-- What each step of a filling keeps, and the faults that stop it. -/
structure Invariant (I : Filling → Prop) (Q : Fault → Prop) : Prop where
  malformed : Q .malformed
  text : ∀ {s id e}, I s → nodeText s.graph (s.graph.size + 1) id = .error e → Q e
  scalar : ∀ {s id text isMap e}, I s → nodeText s.graph (s.graph.size + 1) id = .ok text →
    readScalar id (s.graph.tag id) isMap text = .error e → Q e
  meet : ∀ {s} (met : Array Bool) (queue : List Nat), I s → I { s with met := met, queue := queue }
  merge : ∀ {s id es}, I s → s.graph.content id = .map es →
    Yields (fun g => I { s with graph := g }) Q (s.graph.merge s.merges id)
  fill : ∀ {s} (id : Nat) {v : Value}, I s → (∀ n, v ≠ .link n) →
    I { s with cells := s.cells.setIfInBounds id v }

def Keeps {α : Type} (I : Filling → Prop) (Q : Fault → Prop) (P : α → Prop) (x : Fill α) : Prop :=
  ∀ s, I s → Yields (fun p : α × Filling => P p.1 ∧ I p.2) Q (x.run s)

section
variable {I : Filling → Prop} {Q : Fault → Prop} {α β : Type} {P : α → Prop} {R : β → Prop}

theorem keeps_pure {a : α} (h : P a) : Keeps I Q P (pure a) := fun _ hs => .pure ⟨h, hs⟩

theorem keeps_throw {e : Fault} (h : Q e) : Keeps I Q P (throw e : Fill α) := fun _ _ => .throw h

theorem keeps_bind {x : Fill α} {f : α → Fill β} (hx : Keeps I Q P x)
    (hf : ∀ a, P a → Keeps I Q R (f a)) : Keeps I Q R (x >>= f) :=
  fun s hs => (hx s hs).bind fun p hp => hf p.1 hp.1 p.2 hp.2

theorem keeps_get {f : Filling → Fill β} (hf : ∀ s, I s → Keeps I Q R (f s)) :
    Keeps I Q R (get >>= f) := fun s hs => hf s hs s hs

theorem keeps_modify {f : Filling → Filling} (hf : ∀ s, I s → I (f s)) :
    Keeps I Q (fun _ => True) (modify f : Fill PUnit) := fun s hs => .pure ⟨trivial, hf s hs⟩

theorem keeps_mapM {f : β → Fill α} (hf : ∀ b, Keeps I Q (fun _ => True) (f b)) (bs : List β) :
    Keeps I Q (fun _ => True) (bs.mapM f) := by
  induction bs with
  | nil => exact keeps_pure trivial
  | cons b bs ih =>
    rw [List.mapM_cons]
    exact keeps_bind (hf b) fun a _ => keeps_bind ih fun as _ => keeps_pure trivial

theorem keeps_forM {f : β → Fill PUnit} (hf : ∀ b, Keeps I Q (fun _ => True) (f b))
    (bs : List β) : Keeps I Q (fun _ => True) (bs.forM f) := by
  induction bs with
  | nil => exact keeps_pure trivial
  | cons b bs ih => exact keeps_bind (hf b) fun _ _ => ih

theorem keeps_lift {x : Except Fault α} {f : α → Fill β} (hx : Yields P Q x)
    (hf : ∀ a, P a → Keeps I Q R (f a)) : Keeps I Q R ((liftM x : Fill α) >>= f) := by
  intro s hs
  cases x with
  | ok a => exact hf a (hx.ok a rfl) s hs
  | error e => exact .throw (hx.error e rfl)

end

/-! ## Steps -/

theorem run_entries {s : Filling} {id : Nat} {es : List (Nat × Nat)}
    (h : s.graph.content id = .map es) :
    (entries id).run s = (do
      let g ← s.graph.merge s.merges id
      set { s with graph := g }
      let es ← (g.entries id).mapM fun e => do
        let k ← key e.1
        pure (k, ← value e.2)
      pure (Table.ofList es) : Fill (Table Scalar Value)).run s := by
  simp only [entries, StateT.run_bind, StateT.run_get, pure_bind, h]

theorem run_entries_malformed {s : Filling} {id : Nat} (h : ∀ es, s.graph.content id ≠ .map es) :
    (entries id).run s = .error .malformed := by
  simp only [entries, StateT.run_bind, StateT.run_get, pure_bind]
  cases hcontent : s.graph.content id with
  | map es => exact absurd hcontent (h es)
  | text => rfl
  | seq => rfl

section
variable {I : Filling → Prop} {Q : Fault → Prop} (hI : Invariant I Q)
include hI

theorem keeps_value (id : Nat) : Keeps I Q (fun _ => True) (value id) := by
  refine keeps_get fun s hs => ?_
  dsimp only
  split
  · refine keeps_bind (keeps_modify fun s hs => ?_) fun _ _ => keeps_pure trivial
    split
    · exact hs
    · exact hI.meet _ _ hs
  · split
    · exact keeps_throw hI.malformed
    · refine keeps_lift (P := fun text => nodeText s.graph (s.graph.size + 1) id = .ok text)
        ⟨fun _ htext => htext, fun e he => hI.text hs he⟩ fun text htext => ?_
      exact keeps_lift (P := fun _ => True) ⟨fun _ _ => trivial, fun e he => hI.scalar hs htext he⟩
        fun _ _ => keeps_pure trivial

theorem keeps_key (id : Nat) : Keeps I Q (fun _ => True) (key id) := by
  refine keeps_bind (keeps_value hI id) fun v _ => ?_
  split
  · exact keeps_pure trivial
  · exact keeps_throw hI.malformed

theorem keeps_entry (e : Nat × Nat) : Keeps I Q (fun _ => True)
    (do
      let k ← key e.1
      pure (k, ← value e.2)) :=
  keeps_bind (keeps_key hI e.1) fun _ _ => keeps_bind (keeps_value hI e.2) fun _ _ =>
    keeps_pure trivial

theorem keeps_entries (id : Nat) : Keeps I Q (fun _ => True) (entries id) := by
  intro s hs
  by_cases hmap : ∃ es, s.graph.content id = .map es
  · obtain ⟨es, hes⟩ := hmap
    rw [run_entries hes]
    refine keeps_lift (R := fun _ => True) (hI.merge hs hes) (fun g hg => ?_) s hs
    refine keeps_bind (P := fun _ => True) (fun _ _ => .pure ⟨trivial, hg⟩) fun _ _ => ?_
    exact keeps_bind (keeps_mapM (keeps_entry hI) _) fun _ _ => keeps_pure trivial
  · rw [run_entries_malformed fun es hes => hmap ⟨es, hes⟩]
    exact .throw hI.malformed

theorem keeps_pair (id : Nat) : Keeps I Q (fun _ => True) (pair id) := by
  refine keeps_get fun s hs => ?_
  split
  · exact keeps_bind (keeps_value hI _) fun k _ => keeps_bind (keeps_value hI _) fun v _ =>
      keeps_pure trivial
  · exact keeps_throw hI.malformed

theorem keeps_items (id : Nat) {item : Nat → Fill Value}
    (hitem : ∀ id, Keeps I Q (fun _ => True) (item id)) :
    Keeps I Q (fun v => ∀ n, v ≠ .link n) (items id item) := by
  refine keeps_get fun s hs => ?_
  split
  · exact keeps_bind (keeps_mapM hitem _) fun vs _ => keeps_pure nofun
  · exact keeps_throw hI.malformed

theorem keeps_fill (id : Nat) : Keeps I Q (fun _ => True) (fill id) := by
  have hput : ∀ v : Value, (∀ n, v ≠ .link n) → Keeps I Q (fun _ => True)
      (modify fun s => { s with cells := s.cells.setIfInBounds id v } : Fill PUnit) :=
    fun v hv => keeps_modify fun s hs => hI.fill id hs hv
  refine keeps_get fun s hs => ?_
  dsimp only
  split
  · exact keeps_bind (keeps_items hI id (keeps_value hI)) hput
  · exact keeps_bind (keeps_items hI id (keeps_pair hI)) hput
  · exact keeps_bind (keeps_entries hI id) fun es _ => keeps_bind (keeps_pure nofun) hput
  · exact keeps_bind (keeps_entries hI id) fun es _ => keeps_bind (keeps_pure nofun) hput

theorem keeps_fillAll (rounds : Nat) : Keeps I Q (fun _ => True) (fillAll rounds) := by
  induction rounds with
  | zero => exact keeps_pure trivial
  | succ rounds ih =>
    refine keeps_get fun s hs => ?_
    dsimp only
    split
    · exact keeps_bind (keeps_modify fun s hs => hI.meet s.met [] hs) fun _ _ =>
        keeps_bind (keeps_forM (keeps_fill hI) _) fun _ _ => ih
    · exact keeps_pure trivial

end

end Fill

/-- What holds of a graph with empty cells, and is kept, holds of the cells that are filled. -/
theorem yields_toDocument {I : Filling → Prop} {Q : Fault → Prop} (hI : Fill.Invariant I Q)
    {g : Graph} (hstart : I ⟨g, g.mergeCount, Array.replicate g.size .null,
      Array.replicate g.size false, []⟩) (root : Nat) :
    Yields (fun d => ∃ s, I s ∧ d.cells = s.cells) Q (g.toDocument root) := by
  have hroot : Fill.Keeps I Q (fun _ => True) (do
      let v ← Fill.value root
      Fill.fillAll (g.size + 1)
      pure v) :=
    Fill.keeps_bind (Fill.keeps_value hI root) fun v _ =>
      Fill.keeps_bind (Fill.keeps_fillAll hI _) fun _ _ => Fill.keeps_pure trivial
  exact (hroot _ hstart).bind fun p hp => .pure ⟨p.2, hp.2, rfl⟩

end ApiTypes.Yaml
