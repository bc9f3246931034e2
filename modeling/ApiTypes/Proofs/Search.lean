import Mathlib.Data.List.Nodup
import Mathlib.Data.List.Perm.Subperm
import Mathlib.Logic.Relation
import ApiTypes.Component.Cycles

/-!
# The search for groups

A visit leaves the stack as it was but for keys on top of it that were not met before. The lowest number
of a key tells whether these reach below: if it is less than the number of the key, a key below with that
number is reached; and no reference leads from a key on top to one below with a lesser number. So the keys
on top are a group when the lowest number of a key is its own one.
-/

namespace ApiTypes.Search

variable {κ : Type}

/-! ## Reachability -/

def Refers (references : κ → List κ) (j k : κ) : Prop := k ∈ references j

def Reaches (references : κ → List κ) : κ → κ → Prop := Relation.ReflTransGen (Refers references)

/-! ## Groups -/

/-- The lists are the groups of their keys, in the order of the names, each behind the groups that it
refers to. -/
structure AreGroups (names : List κ) (references : κ → List κ) (gs : List (List κ)) : Prop where
  sublist : ∀ g ∈ gs, g.Sublist names
  ne_nil : ∀ g ∈ gs, g ≠ []
  nodup : gs.flatten.Nodup
  cycle : ∀ g ∈ gs, ∀ j ∈ g, ∀ k, k ∈ g ↔ Reaches references j k ∧ Reaches references k j
  before : ∀ front g rest, gs = front ++ g :: rest → ∀ j ∈ g, ∀ k ∈ references j,
    k ∈ g ∨ k ∈ front.flatten

variable {names : List κ} {references : κ → List κ} {gs : List (List κ)}

theorem AreGroups.nil : AreGroups names references [] where
  sublist := nofun
  ne_nil := nofun
  nodup := List.nodup_nil
  cycle := nofun
  before front g rest h := by simp at h

theorem AreGroups.mem_of_reaches (h : AreGroups names references gs) {j k : κ}
    (hj : j ∈ gs.flatten) (hr : Reaches references j k) : k ∈ gs.flatten := by
  induction hr with
  | refl => exact hj
  | tail _ hlast ih =>
    obtain ⟨g, hg, hmem⟩ := List.mem_flatten.mp ih
    obtain ⟨front, rest, rfl⟩ := List.append_of_mem hg
    rcases h.before front g rest rfl _ hmem _ hlast with hin | hin
    · exact List.mem_flatten_of_mem hg hin
    · rw [List.flatten_append]
      exact List.mem_append_left _ hin

theorem AreGroups.concat (h : AreGroups names references gs) {g : List κ} (hsublist : g.Sublist names)
    (hnil : g ≠ []) (hnodup : g.Nodup) (hdisjoint : ∀ k ∈ g, k ∉ gs.flatten)
    (hcycle : ∀ j ∈ g, ∀ k, k ∈ g ↔ Reaches references j k ∧ Reaches references k j)
    (hbefore : ∀ j ∈ g, ∀ k ∈ references j, k ∈ g ∨ k ∈ gs.flatten) :
    AreGroups names references (gs ++ [g]) where
  sublist := List.forall_mem_append.mpr ⟨h.sublist, List.forall_mem_singleton.mpr hsublist⟩
  ne_nil := List.forall_mem_append.mpr ⟨h.ne_nil, List.forall_mem_singleton.mpr hnil⟩
  nodup := by
    rw [List.flatten_append, List.flatten_singleton, List.nodup_append']
    exact ⟨h.nodup, hnodup, fun k hk hg => hdisjoint k hg hk⟩
  cycle := List.forall_mem_append.mpr ⟨h.cycle, List.forall_mem_singleton.mpr hcycle⟩
  before front g' rest heq := by
    rcases List.append_eq_append_iff.mp heq with ⟨mid, rfl, hlast⟩ | ⟨mid, rfl, hlast⟩
    · cases mid with
      | nil =>
        cases hlast
        rwa [List.append_nil]
      | cons _ mid => simp at hlast
    · cases mid with
      | nil =>
        cases hlast
        rwa [List.append_nil] at hbefore
      | cons _ mid =>
        cases hlast
        exact h.before front g' mid rfl

/-! ## Valid searches -/

def Met (s : Search κ) (k : κ) : Prop := k ∈ s.index.map (·.1)

section
variable [BEq κ] {s s' s'' : Search κ} {j k : κ}

/-- A search that goes on numbers new keys only, behind those that it has. -/
structure Extends (s s' : Search κ) : Prop where
  length : s.index.length ≤ s'.index.length
  met : ∀ k, s.Met k → s'.Met k
  number : ∀ k, s.Met k → s'.number k = s.number k
  lowest : ∀ k, s.Met k → s'.lowest k = s.lowest k
  later : ∀ k, s'.Met k → ¬ s.Met k → s.index.length ≤ s'.number k

theorem Extends.trans (h : s.Extends s') (h' : s'.Extends s'') : s.Extends s'' where
  length := Nat.le_trans h.length h'.length
  met k hk := h'.met k (h.met k hk)
  number k hk := (h'.number k (h.met k hk)).trans (h.number k hk)
  lowest k hk := (h'.lowest k (h.met k hk)).trans (h.lowest k hk)
  later k hk hnot := by
    by_cases hmid : s'.Met k
    · rw [h'.number k hmid]
      exact h.later k hmid hnot
    · exact Nat.le_trans h.length (h'.later k hk hmid)

/-- What holds of a search at any time. The path has the keys whose visits go on: all keys on the stack
reach one of them, and the references of the others have been followed. -/
structure Valid (names : List κ) (references : κ → List κ) (s : Search κ) (path : List κ) :
    Prop where
  mem : ∀ k, s.Met k → k ∈ names
  nodup : (s.index.map (·.1)).Nodup
  number_lt : ∀ k, s.Met k → s.number k < s.index.length
  stack_nodup : s.stack.Nodup
  onStack : ∀ k, k ∈ s.onStack ↔ k ∈ s.stack
  met_iff : ∀ k, s.Met k ↔ k ∈ s.stack ∨ k ∈ s.groups.flatten
  disjoint : ∀ k ∈ s.stack, k ∉ s.groups.flatten
  onPath : ∀ k ∈ path, k ∈ s.stack
  followed : ∀ k ∈ s.stack, k ∉ path → ∀ j ∈ references k, s.Met j
  reaches : ∀ k ∈ s.stack, ∃ j ∈ path, Reaches references k j
  groups : AreGroups names references s.groups

variable {path : List κ}

theorem Valid.met (h : s.Valid names references path) (hk : k ∈ s.stack) : s.Met k :=
  (h.met_iff k).mpr (.inl hk)

theorem Valid.lower (h : s.Valid names references path) (k : κ) (n : Nat) :
    (s.lower k n).Valid names references path :=
  ⟨h.mem, h.nodup, h.number_lt, h.stack_nodup, h.onStack, h.met_iff, h.disjoint, h.onPath, h.followed,
    h.reaches, h.groups⟩

/-- What is known of a visit of `k` from the search `s` on, once its references to `js` have been
followed. -/
structure Visited (names : List κ) (references : κ → List κ) (s : Search κ) (path : List κ) (k : κ)
    (js : List κ) (s' : Search κ) : Prop where
  valid : s'.Valid names references path
  grown : s.Extends s'
  stack : ∃ above, s'.stack = above ++ s.stack ∧ ∀ i ∈ above, ¬ s.Met i
  met : s'.Met k
  followed : ∀ j ∈ js, s'.Met j
  reached : ∀ j, s'.Met j → s.Met j ∨ Reaches references k j
  least : s'.lowest k < s.index.length →
    ∃ j ∈ s.stack, s.number j = s'.lowest k ∧ Reaches references k j
  bound : ∀ i ∈ s'.stack, ¬ s.Met i → ∀ j ∈ references i, (i = k → j ∈ js) → j ∈ s.stack →
    s'.lowest k ≤ s.number j

/-- A visit that goes on: `k` is the lowest of the new keys on the stack, and has the first of the new
numbers. -/
structure Visiting (names : List κ) (references : κ → List κ) (s : Search κ) (path : List κ) (k : κ)
    (js : List κ) (s' : Search κ) : Prop extends Visited names references s (k :: path) k js s' where
  root : ∃ above, s'.stack = above ++ k :: s.stack
  number : s'.number k = s.index.length
  lowest_le : s'.lowest k ≤ s.index.length

variable {js : List κ}

section
variable (h : Visited names references s path k js s')
include h

theorem Visited.mem_stack (hj : j ∈ s.stack) : j ∈ s'.stack := by
  obtain ⟨above, hstack, _⟩ := h.stack
  rw [hstack]
  exact List.mem_append_right _ hj

theorem Visited.mem_stack_of_met (hj : j ∈ s'.stack) (hmet : s.Met j) : j ∈ s.stack := by
  obtain ⟨above, hstack, hnew⟩ := h.stack
  rw [hstack] at hj
  exact (List.mem_append.mp hj).resolve_left fun hin => hnew j hin hmet

theorem Visited.mem_stack_of_lt (hj : j ∈ s'.stack) (hlt : s'.number j < s.index.length) :
    j ∈ s.stack ∧ s.number j = s'.number j := by
  by_cases hmet : s.Met j
  · exact ⟨h.mem_stack_of_met hj hmet, (h.grown.number j hmet).symm⟩
  · exact absurd hlt (Nat.not_lt.mpr (h.grown.later j (h.valid.met hj) hmet))

end

/-! ## Steps -/

variable [LawfulBEq κ]

theorem has_index_iff : s.index.has k = true ↔ s.Met k := by
  simp [Table.has, Met]

theorem met_enter : (s.enter k).Met j ↔ s.Met j ∨ j = k := Table.mem_keys_put

theorem number_enter_self (s : Search κ) (k : κ) : (s.enter k).number k = s.index.length := by
  rw [number, enter, Table.get?_put_self, Option.getD_some]

theorem number_enter_of_ne (h : j ≠ k) : (s.enter k).number j = s.number j := by
  rw [number, enter, Table.get?_put_of_ne h, number]

theorem lowest_enter_self (s : Search κ) (k : κ) : (s.enter k).lowest k = s.index.length := by
  rw [lowest, enter, Table.get?_put_self, Option.getD_some]

theorem lowest_enter_of_ne (h : j ≠ k) : (s.enter k).lowest j = s.lowest j := by
  rw [lowest, enter, Table.get?_put_of_ne h, lowest]

theorem lowest_lower_self (s : Search κ) (k : κ) (n : Nat) :
    (s.lower k n).lowest k = min (s.lowest k) n := by
  rw [lowest, lower, Table.get?_put_self, Option.getD_some]

theorem lowest_lower_of_ne (h : j ≠ k) (n : Nat) : (s.lower k n).lowest j = s.lowest j := by
  rw [lowest, lower, Table.get?_put_of_ne h, lowest]

theorem popTo_append {above below : List κ} (h : k ∉ above) :
    popTo k (above ++ k :: below) = (above ++ [k], below) := by
  induction above with
  | nil => simp [popTo]
  | cons j above ih =>
    rw [List.mem_cons, not_or] at h
    have hj : ¬ (j == k) = true := fun hj => h.1 (eq_of_beq hj).symm
    rw [List.cons_append, popTo, if_neg hj, ih h.2]
    rfl

theorem close_eq {above below : List κ} (hstack : s.stack = above ++ k :: below) (h : k ∉ above) :
    s.close names k = { s with
      stack := below
      onStack := s.onStack.filter fun j => !(above ++ [k]).contains j
      groups := s.groups ++ [names.filter (above ++ [k]).contains] } := by
  rw [close, hstack, popTo_append h]

theorem length_enter (h : ¬ s.Met k) : (s.enter k).index.length = s.index.length + 1 := by
  rw [enter, Table.put_of_notMem h, List.length_append, List.length_singleton]

theorem extends_enter (h : ¬ s.Met k) : s.Extends (s.enter k) where
  length := by
    rw [length_enter h]
    exact Nat.le_succ _
  met j hj := met_enter.mpr (.inl hj)
  number j hj := number_enter_of_ne fun hjk => h (hjk ▸ hj)
  lowest j hj := lowest_enter_of_ne fun hjk => h (hjk ▸ hj)
  later j hj hnot := by
    rcases met_enter.mp hj with hj | rfl
    · exact absurd hj hnot
    · exact Nat.le_of_eq (number_enter_self s j).symm

theorem Extends.lower (h : s.Extends s') (hk : ¬ s.Met k) (n : Nat) : s.Extends (s'.lower k n) where
  length := h.length
  met := h.met
  number := h.number
  lowest j hj := by
    have hjk : j ≠ k := fun hjk => hk (hjk ▸ hj)
    rw [lowest_lower_of_ne hjk, h.lowest j hj]
  later := h.later

theorem Valid.enter (h : s.Valid names references path) (hk : k ∈ names) (hnew : ¬ s.Met k) :
    (s.enter k).Valid names references (k :: path) where
  mem j hj := (met_enter.mp hj).elim (h.mem j) fun hjk => hjk ▸ hk
  nodup := by
    -- the new node is numbered last
    have hkeys : (s.enter k).index.map (·.1) = s.index.map (·.1) ++ [k] := by
      rw [Search.enter, Table.put_of_notMem hnew, List.map_append]
      rfl
    rw [hkeys, List.nodup_append']
    exact ⟨h.nodup, List.nodup_singleton k, List.disjoint_singleton.mpr hnew⟩
  number_lt j hj := by
    rw [length_enter hnew]
    by_cases hjk : j = k
    · rw [hjk, number_enter_self]
      exact Nat.lt_succ_self _
    · rw [number_enter_of_ne hjk]
      exact Nat.lt_succ_of_lt (h.number_lt j ((met_enter.mp hj).resolve_right hjk))
  stack_nodup := List.nodup_cons.mpr ⟨fun hk => hnew (h.met hk), h.stack_nodup⟩
  onStack j := by
    show j ∈ k :: s.onStack ↔ j ∈ k :: s.stack
    rw [List.mem_cons, List.mem_cons, h.onStack]
  met_iff j := by
    rw [met_enter, h.met_iff]
    show _ ↔ j ∈ k :: s.stack ∨ j ∈ s.groups.flatten
    rw [List.mem_cons]
    tauto
  disjoint := List.forall_mem_cons.mpr
    ⟨fun hk => hnew ((h.met_iff k).mpr (.inr hk)), h.disjoint⟩
  onPath := List.forall_mem_cons.mpr
    ⟨List.mem_cons_self, fun j hj => List.mem_cons_of_mem _ (h.onPath j hj)⟩
  followed j hj hpath i hi := by
    rw [List.mem_cons, not_or] at hpath
    have hj := (List.mem_cons.mp hj).resolve_left hpath.1
    exact met_enter.mpr (.inl (h.followed j hj hpath.2 i hi))
  reaches := List.forall_mem_cons.mpr ⟨⟨k, List.mem_cons_self, .refl⟩, fun j hj =>
    let ⟨i, hi, hr⟩ := h.reaches j hj
    ⟨i, List.mem_cons_of_mem _ hi, hr⟩⟩
  groups := h.groups

/-! ## Visits -/

theorem visiting_enter (h : s.Valid names references path) (hk : k ∈ names) (hnew : ¬ s.Met k) :
    Visiting names references s path k [] (s.enter k) where
  valid := h.enter hk hnew
  grown := extends_enter hnew
  stack := ⟨[k], rfl, List.forall_mem_singleton.mpr hnew⟩
  met := met_enter.mpr (.inr rfl)
  followed := nofun
  reached j hj := by
    rcases met_enter.mp hj with hj | rfl
    · exact .inl hj
    · exact .inr .refl
  least hlt := by
    rw [lowest_enter_self] at hlt
    exact absurd hlt (Nat.lt_irrefl _)
  bound i hi hnot j _ hroot _ := by
    rcases List.mem_cons.mp hi with rfl | hi
    · exact absurd (hroot rfl) List.not_mem_nil
    · exact absurd (h.met hi) hnot
  root := ⟨[], rfl⟩
  number := number_enter_self s k
  lowest_le := Nat.le_of_eq (lowest_enter_self s k)

theorem Visiting.lower_of_visited (h : Visiting names references s path k js s')
    (hvalid : s.Valid names references path) (hk : ¬ s.Met k) (hj : j ∈ references k)
    (hnew : ¬ s'.Met j) (h' : Visited names references s' (k :: path) j (references j) s'') :
    Visiting names references s path k (js ++ [j]) (s''.lower k (s''.lowest j)) := by
  have hlowest : (s''.lower k (s''.lowest j)).lowest k = min (s'.lowest k) (s''.lowest j) := by
    rw [lowest_lower_self, h'.grown.lowest k h.met]
  refine
    { valid := h'.valid.lower k _
      grown := (h.grown.trans h'.grown).lower hk _
      stack := ?stack
      met := h'.grown.met k h.met
      followed := ?followed
      reached := ?reached
      least := ?least
      bound := ?bound
      root := ?root
      number := (h'.grown.number k h.met).trans h.number
      lowest_le := hlowest ▸ Nat.le_trans (Nat.min_le_left _ _) h.lowest_le }
  case stack =>
    obtain ⟨above, hstack, hold⟩ := h.stack
    obtain ⟨above', hstack', hold'⟩ := h'.stack
    refine ⟨above' ++ above, ?_, List.forall_mem_append.mpr ⟨fun i hi hmet => ?_, hold⟩⟩
    · rw [List.append_assoc, ← hstack]
      exact hstack'
    · exact hold' i hi (h.grown.met i hmet)
  case followed =>
    exact List.forall_mem_append.mpr
      ⟨fun i hi => h'.grown.met i (h.followed i hi), List.forall_mem_singleton.mpr h'.met⟩
  case reached =>
    intro i hi
    rcases h'.reached i hi with hi | hr
    · exact h.reached i hi
    · exact .inr (.head hj hr)
  case least =>
    rw [hlowest]
    intro hlt
    -- the new lowest is the old one or that of the visited child
    rcases Nat.le_total (s'.lowest k) (s''.lowest j) with hle | hle
    · rw [Nat.min_eq_left hle] at hlt ⊢
      exact h.least hlt
    · rw [Nat.min_eq_right hle] at hlt ⊢
      obtain ⟨i, hi, hnumber, hr⟩ := h'.least (Nat.lt_of_lt_of_le hlt h.grown.length)
      rw [← hnumber] at hlt ⊢
      obtain ⟨hi, hsame⟩ := h.mem_stack_of_lt hi hlt
      exact ⟨i, hi, hsame, .head hj hr⟩
  case bound =>
    rw [hlowest]
    intro i hi hnot l hl hroot hbelow
    -- a node met before was bounded then, the others are of the visit to `j`
    by_cases hmet : s'.Met i
    · have hfollowed : i = k → l ∈ js := by
        intro hik
        rcases List.mem_append.mp (hroot hik) with hin | hlast
        · exact hin
        · rw [List.mem_singleton.mp hlast] at hbelow
          exact absurd (h.grown.met j (hvalid.met hbelow)) hnew
      exact Nat.le_trans (Nat.min_le_left _ _)
        (h.bound i (h'.mem_stack_of_met hi hmet) hnot l hl hfollowed hbelow)
    · have hbound := h'.bound i hi hmet l hl (fun hij => hij ▸ hl) (h.mem_stack hbelow)
      rw [h.grown.number l (hvalid.met hbelow)] at hbound
      exact Nat.le_trans (Nat.min_le_right _ _) hbound
  case root =>
    obtain ⟨above, hstack⟩ := h.root
    obtain ⟨above', hstack', _⟩ := h'.stack
    exact ⟨above' ++ above, by rw [List.append_assoc, ← hstack]; exact hstack'⟩

theorem Visiting.lower_of_mem_stack (h : Visiting names references s path k js s')
    (hvalid : s.Valid names references path) (hk : ¬ s.Met k) (hj : j ∈ references k)
    (hstack : j ∈ s'.stack) :
    Visiting names references s path k (js ++ [j]) (s'.lower k (s'.number j)) := by
  have hlowest : (s'.lower k (s'.number j)).lowest k = min (s'.lowest k) (s'.number j) :=
    lowest_lower_self s' k _
  refine
    { valid := h.valid.lower k _
      grown := h.grown.lower hk _
      stack := h.stack
      met := h.met
      followed := ?followed
      reached := h.reached
      least := ?least
      bound := ?bound
      root := h.root
      number := h.number
      lowest_le := hlowest ▸ Nat.le_trans (Nat.min_le_left _ _) h.lowest_le }
  case followed =>
    exact List.forall_mem_append.mpr
      ⟨h.followed, List.forall_mem_singleton.mpr (h.valid.met hstack)⟩
  case least =>
    rw [hlowest]
    intro hlt
    rcases Nat.le_total (s'.lowest k) (s'.number j) with hle | hle
    · rw [Nat.min_eq_left hle] at hlt ⊢
      exact h.least hlt
    · rw [Nat.min_eq_right hle] at hlt ⊢
      obtain ⟨hbelow, hsame⟩ := h.mem_stack_of_lt hstack hlt
      exact ⟨j, hbelow, hsame, .single hj⟩
  case bound =>
    rw [hlowest]
    intro i hi hnot l hl hroot hbelow
    -- the number of `j` bounds its own edge
    by_cases hlj : l = j
    · rw [hlj, ← h.grown.number j (hvalid.met (hlj ▸ hbelow))]
      exact Nat.min_le_right _ _
    · have hfollowed : i = k → l ∈ js := fun hik =>
        (List.mem_append.mp (hroot hik)).resolve_right fun hin => hlj (List.mem_singleton.mp hin)
      exact Nat.le_trans (Nat.min_le_left _ _) (h.bound i hi hnot l hl hfollowed hbelow)

omit [LawfulBEq κ] in
theorem Visiting.skip (h : Visiting names references s path k js s') (hmet : s'.Met j)
    (hstack : j ∉ s'.stack) : Visiting names references s path k (js ++ [j]) s' where
  valid := h.valid
  grown := h.grown
  stack := h.stack
  met := h.met
  followed := List.forall_mem_append.mpr ⟨h.followed, List.forall_mem_singleton.mpr hmet⟩
  reached := h.reached
  least := h.least
  bound i hi hnot l hl hroot hbelow := by
    have hlj : l ≠ j := fun hlj => hstack (hlj ▸ h.mem_stack hbelow)
    have hfollowed : i = k → l ∈ js := fun hik =>
      (List.mem_append.mp (hroot hik)).resolve_right fun hin => hlj (List.mem_singleton.mp hin)
    exact h.bound i hi hnot l hl hfollowed hbelow
  root := h.root
  number := h.number
  lowest_le := h.lowest_le

/-- The function visits every new key that all keys of the path reach, as deep as there may be keys. -/
def Visits (names : List κ) (references : κ → List κ) (depth : Nat)
    (visit : Search κ → κ → Search κ) : Prop :=
  ∀ s path k, s.Valid names references path → k ∈ names → ¬ s.Met k →
    (∀ i ∈ path, Reaches references i k) → names.length ≤ s.index.length + depth →
    Visited names references s path k (references k) (visit s k)

section
variable {visit : Search κ → κ → Search κ} {depth : Nat}
  (hvisit : Visits names references depth visit)
  (hclosed : ∀ k, ∀ j ∈ references k, j ∈ names) (hvalid : s.Valid names references path)
  (hk : ¬ s.Met k) (hpath : ∀ i ∈ path, Reaches references i k)
  (hdepth : names.length ≤ s.index.length + (depth + 1))
include hvisit hclosed hvalid hk hpath hdepth

theorem Visiting.follow (h : Visiting names references s path k js s') (hj : j ∈ references k) :
    Visiting names references s path k (js ++ [j]) (follow visit k s' j) := by
  unfold Search.follow
  by_cases hmet : s'.Met j
  · rw [has_index_iff.mpr hmet]
    by_cases hstack : j ∈ s'.stack
    · have hon : s'.onStack.contains j = true :=
        List.contains_iff_mem.mpr ((h.valid.onStack j).mpr hstack)
      rw [hon]
      exact h.lower_of_mem_stack hvalid hk hj hstack
    · have hon : ¬ s'.onStack.contains j = true := fun hon =>
        hstack ((h.valid.onStack j).mp (List.contains_iff_mem.mp hon))
      rw [if_neg hon]
      exact h.skip hmet hstack
  · have hhas : s'.index.has j = false := by
      rw [← Bool.not_eq_true, has_index_iff]
      exact hmet
    rw [hhas]
    have hpath' : ∀ i ∈ k :: path, Reaches references i j :=
      List.forall_mem_cons.mpr ⟨.single hj, fun i hi => (hpath i hi).tail hj⟩
    have hlength : s.index.length < s'.index.length := by
      rw [← h.number]
      exact h.valid.number_lt k h.met
    exact h.lower_of_visited hvalid hk hj hmet
      (hvisit s' (k :: path) j h.valid (hclosed k j hj) hmet hpath' (by omega))

theorem Visiting.foldl (h : Visiting names references s path k js s') {js' : List κ}
    (hjs' : ∀ j ∈ js', j ∈ references k) :
    Visiting names references s path k (js ++ js') (js'.foldl (Search.follow visit k) s') := by
  induction js' generalizing js s' with
  | nil => rwa [List.append_nil]
  | cons j js' ih =>
    obtain ⟨hj, hjs'⟩ := List.forall_mem_cons.mp hjs'
    have hnext := h.follow hvisit hclosed hvalid hk hpath hdepth hj
    rw [List.foldl_cons, List.append_cons]
    exact ih hnext hjs'

end

/-! ## The end of a visit -/

omit [LawfulBEq κ] in
theorem Visiting.leave (h : Visiting names references s path k (references k) s')
    (hvalid : s.Valid names references path) (hlow : s'.lowest k < s.index.length) :
    Visited names references s path k (references k) s' := by
  have hleft : s'.Valid names references path :=
    { h.valid with
      onPath := fun i hi => h.valid.onPath i (List.mem_cons_of_mem k hi)
      followed := by
        intro i hi hnot
        by_cases hik : i = k
        · rw [hik]
          exact h.followed
        · exact h.valid.followed i hi (List.not_mem_cons_of_ne_of_not_mem hik hnot)
      reaches := by
        intro i hi
        obtain ⟨j, hj, hij⟩ := h.valid.reaches i hi
        rcases List.mem_cons.mp hj with rfl | hj
        · obtain ⟨l, hl, _, hjl⟩ := h.least hlow
          obtain ⟨m, hm, hlm⟩ := hvalid.reaches l hl
          exact ⟨m, hm, hij.trans (hjl.trans hlm)⟩
        · exact ⟨j, hj, hij⟩ }
  exact { h.toVisited with valid := hleft }

section
variable (h : Visiting names references s path k (references k) s')
  {above : List κ} (hstack : s'.stack = above ++ k :: s.stack)
include h hstack

omit [LawfulBEq κ] in
theorem Visiting.not_met {i : κ} (hi : i ∈ above ++ [k]) : i ∈ s'.stack ∧ ¬ s.Met i := by
  have hnodup := h.valid.stack_nodup
  have hin : i ∈ s'.stack := by
    rw [hstack, List.append_cons]
    exact List.mem_append_left _ hi
  rw [hstack, List.append_cons, List.nodup_append'] at hnodup
  exact ⟨hin, fun hmet => hnodup.2.2 hi (h.mem_stack_of_met hin hmet)⟩

theorem Visiting.mem_group {i : κ} :
    i ∈ names.filter (above ++ [k]).contains ↔ i ∈ above ++ [k] := by
  rw [List.mem_filter, List.contains_iff_mem]
  refine and_iff_right_of_imp fun hi => ?_
  exact h.valid.mem i (h.valid.met (h.not_met hstack hi).1)

variable (hpath : ∀ i ∈ path, Reaches references i k)
include hpath

omit [LawfulBEq κ] in
theorem Visiting.reaches_root {i : κ} (hi : i ∈ above ++ [k]) :
    Reaches references k i ∧ Reaches references i k := by
  obtain ⟨hin, hnew⟩ := h.not_met hstack hi
  refine ⟨(h.reached i (h.valid.met hin)).resolve_left hnew, ?_⟩
  obtain ⟨j, hj, hij⟩ := h.valid.reaches i hin
  rcases List.mem_cons.mp hj with rfl | hj
  · exact hij
  · exact hij.trans (hpath j hj)

variable (hvalid : s.Valid names references path) (hlow : s'.lowest k = s.index.length)
include hvalid hlow

omit [LawfulBEq κ] hpath in
theorem Visiting.mem_or_mem_groups {i : κ} (hi : i ∈ above ++ [k]) (hj : j ∈ references i) :
    j ∈ above ++ [k] ∨ j ∈ s'.groups.flatten := by
  obtain ⟨hin, hnew⟩ := h.not_met hstack hi
  have hmet : s'.Met j := by
    by_cases hik : i = k
    · exact h.followed j (hik ▸ hj)
    · have hnot : i ∉ k :: path := by
        refine List.not_mem_cons_of_ne_of_not_mem hik fun hpath => hnew ?_
        exact hvalid.met (hvalid.onPath i hpath)
      exact h.valid.followed i hin hnot j hj
  rcases (h.valid.met_iff j).mp hmet with hjstack | hgroups
  · rw [hstack, List.append_cons] at hjstack
    refine .inl ((List.mem_append.mp hjstack).resolve_right fun hbelow => ?_)
    have hbound := h.bound i hin hnew j hj (fun hik => hik ▸ hj) hbelow
    rw [hlow] at hbound
    exact Nat.not_lt.mpr hbound (hvalid.number_lt j (hvalid.met hbelow))
  · exact .inr hgroups

omit [LawfulBEq κ] in
/-- The keys from the top down to the visited one are all that reach it and are reached from it. -/
theorem Visiting.cycle {i : κ} (hi : i ∈ above ++ [k]) (j : κ) :
    j ∈ above ++ [k] ↔ Reaches references i j ∧ Reaches references j i := by
  have hik := h.reaches_root hstack hpath hi
  constructor
  · intro hj
    have hjk := h.reaches_root hstack hpath hj
    exact ⟨hik.2.trans hjk.1, hjk.2.trans hik.1⟩
  · rintro ⟨hij, hji⟩
    have hreached : j ∈ above ++ [k] ∨ j ∈ s'.groups.flatten := by
      clear hji
      induction hij with
      | refl => exact .inl hi
      | tail _ hlast ih =>
        rcases ih with hin | hin
        · exact h.mem_or_mem_groups hstack hvalid hlow hin hlast
        · exact .inr (h.valid.groups.mem_of_reaches hin (.single hlast))
    refine hreached.resolve_right fun hgroups => ?_
    -- what a group reaches is in groups, so the key would be in one
    have hin := (h.not_met hstack hi).1
    exact h.valid.disjoint i hin (h.valid.groups.mem_of_reaches hgroups hji)

theorem Visiting.areGroups (hnodup : names.Nodup) : AreGroups names references
    (s'.groups ++ [names.filter (above ++ [k]).contains]) := by
  have hroot : k ∈ above ++ [k] := List.mem_append_right _ List.mem_cons_self
  refine h.valid.groups.concat List.filter_sublist (List.ne_nil_of_mem ((h.mem_group hstack).mpr hroot))
    (hnodup.filter _) ?_ ?_ ?_
  · intro i hi
    exact h.valid.disjoint i (h.not_met hstack ((h.mem_group hstack).mp hi)).1
  · intro i hi j
    rw [h.mem_group hstack]
    exact h.cycle hstack hpath hvalid hlow ((h.mem_group hstack).mp hi) j
  · intro i hi j hj
    rw [h.mem_group hstack]
    exact h.mem_or_mem_groups hstack hvalid hlow ((h.mem_group hstack).mp hi) hj

theorem Visiting.close (hnodup : names.Nodup) :
    Visited names references s path k (references k) (s'.close names k) := by
  have hroot : k ∉ above := by
    have hstackNodup := h.valid.stack_nodup
    rw [hstack, List.append_cons, List.nodup_append'] at hstackNodup
    intro hk
    exact (List.nodup_append'.mp hstackNodup.1).2.2 hk List.mem_cons_self
  -- the group that closes is what stands above the old stack
  have hnew : ∀ i ∈ s.stack, i ∉ above ++ [k] := fun i hi hin =>
    (h.not_met hstack hin).2 (hvalid.met hi)
  have hin : ∀ i, i ∈ s'.stack ↔ i ∈ above ++ [k] ∨ i ∈ s.stack := by
    intro i
    rw [hstack, List.append_cons, List.mem_append]
  have hgroups : ∀ i, i ∈ (s'.groups ++ [names.filter (above ++ [k]).contains]).flatten ↔
      i ∈ s'.groups.flatten ∨ i ∈ above ++ [k] := by
    intro i
    rw [List.flatten_append, List.flatten_singleton, List.mem_append, h.mem_group hstack]
  rw [close_eq hstack hroot]
  refine
    { valid :=
        { mem := h.valid.mem
          nodup := h.valid.nodup
          number_lt := h.valid.number_lt
          stack_nodup := hvalid.stack_nodup
          onStack := ?onStack
          met_iff := ?met_iff
          disjoint := ?disjoint
          onPath := hvalid.onPath
          followed := ?followed
          reaches := hvalid.reaches
          groups := h.areGroups hstack hpath hvalid hlow hnodup }
      grown := ⟨h.grown.length, h.grown.met, h.grown.number, h.grown.lowest, h.grown.later⟩
      stack := ⟨[], rfl, nofun⟩
      met := h.met
      followed := h.followed
      reached := h.reached
      least := fun hlt => absurd hlow (Nat.ne_of_lt hlt)
      bound := fun i hi hnot => absurd (hvalid.met hi) hnot }
  case onStack =>
    intro i
    rw [List.mem_filter, h.valid.onStack, hin, Bool.not_eq_true', ← Bool.not_eq_true,
      List.contains_iff_mem]
    have := hnew i
    tauto
  case met_iff =>
    intro i
    rw [hgroups]
    show s'.Met i ↔ i ∈ s.stack ∨ _
    rw [h.valid.met_iff, hin]
    tauto
  case disjoint =>
    intro i hi
    rw [hgroups]
    rintro (hbefore | hgroup)
    · exact h.valid.disjoint i ((hin i).mpr (.inr hi)) hbefore
    · exact hnew i hi hgroup
  case followed =>
    intro i hi hnot
    have hik : i ≠ k := by
      rintro rfl
      exact hnew i hi (List.mem_append_right _ List.mem_cons_self)
    exact h.valid.followed i ((hin i).mpr (.inr hi)) (List.not_mem_cons_of_ne_of_not_mem hik hnot)

end

/-! ## All visits -/

/-- A visit meets a key before the search is too deep, as each depth has a key of its own. -/
theorem visits_visit (hnodup : names.Nodup) (hclosed : ∀ k, ∀ j ∈ references k, j ∈ names)
    (depth : Nat) : Visits names references depth (visit names references depth) := by
  induction depth with
  | zero =>
    intro s path k hvalid hk hnew _ hdepth
    have hsub : k :: s.index.map (·.1) ⊆ names := List.cons_subset.mpr ⟨hk, hvalid.mem⟩
    have hkeys : (k :: s.index.map (·.1)).Nodup := List.nodup_cons.mpr ⟨hnew, hvalid.nodup⟩
    have hlength := (List.subperm_of_subset hkeys hsub).length_le
    rw [List.length_cons, List.length_map] at hlength
    omega
  | succ depth ih =>
    intro s path k hvalid hk hnew hpath hdepth
    have h := (visiting_enter hvalid hk hnew).foldl ih hclosed hvalid hnew hpath hdepth
      fun _ hj => hj
    rw [List.nil_append] at h
    obtain ⟨above, hstack⟩ := h.root
    rw [visit]
    split
    · rename_i hlow
      rw [h.number] at hlow
      exact h.close hstack hpath hvalid (eq_of_beq hlow) hnodup
    · rename_i hlow
      rw [h.number] at hlow
      have hne : _ ≠ s.index.length := fun heq => hlow (beq_iff_eq.mpr heq)
      exact h.leave hvalid (Nat.lt_of_le_of_ne h.lowest_le hne)

omit [LawfulBEq κ] in
theorem valid_start : (start : Search κ).Valid names references [] where
  mem := nofun
  nodup := List.nodup_nil
  number_lt := nofun
  stack_nodup := List.nodup_nil
  onStack _ := Iff.rfl
  met_iff k := ⟨nofun, by simp [start]⟩
  disjoint := nofun
  onPath := nofun
  followed := nofun
  reaches := nofun
  groups := .nil

omit [LawfulBEq κ] in
theorem foldl_valid {f : Search κ → κ → Search κ} (hf : ∀ s k, s.Valid names references [] →
      k ∈ names → (f s k).Valid names references [] ∧ (f s k).Met k ∧ ∀ j, s.Met j → (f s k).Met j)
    (ks : List κ) (hks : ∀ k ∈ ks, k ∈ names) (h : s.Valid names references []) :
    (ks.foldl f s).Valid names references [] ∧ ∀ k, s.Met k ∨ k ∈ ks → (ks.foldl f s).Met k := by
  induction ks generalizing s with
  | nil => exact ⟨h, fun k hk => hk.resolve_right List.not_mem_nil⟩
  | cons k ks ih =>
    obtain ⟨hk, hks⟩ := List.forall_mem_cons.mp hks
    obtain ⟨hvalid, hmet, hgrown⟩ := hf s k h hk
    obtain ⟨hlast, hall⟩ := ih hks hvalid
    refine ⟨hlast, fun j hj => hall j ?_⟩
    rcases hj with hj | hj
    · exact .inl (hgrown j hj)
    · rcases List.mem_cons.mp hj with rfl | hj
      · exact .inl hmet
      · exact .inr hj

theorem areGroups_run (hnodup : names.Nodup) (hclosed : ∀ k, ∀ j ∈ references k, j ∈ names) :
    AreGroups names references (run names references).groups ∧
      ∀ k, k ∈ (run names references).groups.flatten ↔ k ∈ names := by
  have hstep : ∀ (s : Search κ) k, s.Valid names references [] → k ∈ names →
      let s' := if s.index.has k then s else visit names references names.length s k
      s'.Valid names references [] ∧ s'.Met k ∧ ∀ j, s.Met j → s'.Met j := by
    intro s k hvalid hk
    dsimp only
    split
    · rename_i hmet
      exact ⟨hvalid, has_index_iff.mp hmet, fun _ hj => hj⟩
    · rename_i hnew
      rw [has_index_iff] at hnew
      have h := visits_visit hnodup hclosed names.length s [] k hvalid hk hnew nofun
        (Nat.le_add_left _ _)
      exact ⟨h.valid, h.met, h.grown.met⟩
  obtain ⟨hvalid, hmet⟩ := foldl_valid hstep names (fun _ hk => hk) valid_start
  refine ⟨hvalid.groups, fun k => ⟨fun hk => ?_, fun hk => ?_⟩⟩
  · exact hvalid.mem k ((hvalid.met_iff k).mpr (.inr hk))
  · refine ((hvalid.met_iff k).mp (hmet k (.inr hk))).resolve_left fun hstack => ?_
    -- no visit goes on, so there is no key that one on the stack could reach
    obtain ⟨_, hpath, _⟩ := hvalid.reaches k hstack
    exact List.not_mem_nil hpath

end

example : (run [0, 1, 2, 3] fun k => [[1, 3], [2], [1], [0]].getD k []).groups =
    [[1, 2], [0, 3]] := by decide

end ApiTypes.Search
