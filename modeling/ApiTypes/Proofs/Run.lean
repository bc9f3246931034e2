import Mathlib.Data.List.Forall2
import ApiTypes.Failure

/-!
# Runs

Which failure ends a run, and which notices it gives on the way.
-/

namespace ApiTypes.Run

variable {α β : Type}

/-! ## Results -/

theorem mapM_eq_ok {f : α → Run β} {xs : List α} {ys : List β} :
    (xs.mapM f).result = .ok ys ↔ List.Forall₂ (fun x y => (f x).result = .ok y) xs ys := by
  induction xs generalizing ys with
  | nil => simp [eq_comm]
  | cons x xs ih =>
    rw [List.mapM_cons, bind_eq_ok]
    constructor
    · rintro ⟨y, hy, h⟩
      obtain ⟨zs, hzs, h⟩ := bind_eq_ok.mp h
      cases h
      exact .cons hy (ih.mp hzs)
    · intro h
      cases h with
      | cons hy hys => exact ⟨_, hy, bind_eq_ok.mpr ⟨_, ih.mpr hys, rfl⟩⟩

/-! ## Failures -/

theorem bind_eq_error {x : Run α} {f : α → Run β} {e : Failure} :
    (x >>= f).result = .error e ↔
      x.result = .error e ∨ ∃ a, x.result = .ok a ∧ (f a).result = .error e := by
  rw [result_bind]
  cases x.result with
  | ok a => simp [Except.bind]
  | error e' => simp [Except.bind]

theorem exists_of_mapM_eq_error {f : α → Run β} {xs : List α} {e : Failure}
    (h : (xs.mapM f).result = .error e) : ∃ x ∈ xs, (f x).result = .error e := by
  induction xs with
  | nil => cases h
  | cons x xs ih =>
    rw [List.mapM_cons] at h
    rcases bind_eq_error.mp h with h | ⟨y, _, h⟩
    · exact ⟨x, List.mem_cons_self, h⟩
    rcases bind_eq_error.mp h with h | ⟨ys, _, h⟩
    · obtain ⟨z, hz, h⟩ := ih h
      exact ⟨z, List.mem_cons_of_mem _ hz, h⟩
    · cases h

theorem exists_mem_of_mapM_eq_ok {f : α → Run β} {xs : List α} {ys : List β}
    (h : (xs.mapM f).result = .ok ys) : ∀ x ∈ xs, ∃ y ∈ ys, (f x).result = .ok y := by
  induction xs generalizing ys with
  | nil => simp
  | cons x xs ih =>
    rw [List.mapM_cons] at h
    obtain ⟨y, hy, h⟩ := bind_eq_ok.mp h
    obtain ⟨zs, hzs, h⟩ := bind_eq_ok.mp h
    cases h
    refine List.forall_mem_cons.mpr ⟨⟨y, List.mem_cons_self, hy⟩, fun x' hx' => ?_⟩
    obtain ⟨z, hz, hx'⟩ := ih hzs x' hx'
    exact ⟨z, List.mem_cons_of_mem _ hz, hx'⟩

theorem exists_of_mapM_eq_ok {f : α → Run β} {xs : List α} {ys : List β}
    (h : (xs.mapM f).result = .ok ys) (x : α) (hx : x ∈ xs) : ∃ y, (f x).result = .ok y := by
  obtain ⟨y, _, hy⟩ := exists_mem_of_mapM_eq_ok h x hx
  exact ⟨y, hy⟩

theorem exists_ok_or_error (x : Run α) : (∃ a, x.result = .ok a) ∨ ∃ e, x.result = .error e := by
  cases x.result with
  | ok a => exact .inl ⟨a, rfl⟩
  | error e => exact .inr ⟨e, rfl⟩

theorem exists_of_isOk {x : Run α} (h : x.result.isOk = true) : ∃ a, x.result = .ok a := by
  rcases exists_ok_or_error x with hok | ⟨e, he⟩
  · exact hok
  · rw [he] at h
    cases h

theorem result_ofExcept (x : Except Failure α) : (ofExcept x).result = x := by
  cases x <;> rfl

theorem written_eq_ok {fault : Option WriteFault} {a b : α}
    (h : (written fault a).result = .ok b) : a = b := by
  unfold written at h
  split at h
  · cases h
  · cases h
    rfl

/-! ## Notices -/

def notices (x : Run α) : List Notice := x.run.log

@[simp] theorem notices_pure (a : α) : (pure a : Run α).notices = [] := rfl

@[simp] theorem notices_tell (n : Notice) : (tell n).notices = [n] := rfl

@[simp] theorem notices_ofWritten (x : Except WriteFault α) : (ofWritten x).notices = [] := by
  cases x <;> rfl

theorem notices_bind {x : Run α} {a : α} (h : x.result = .ok a) (f : α → Run β) :
    (x >>= f).notices = x.notices ++ (f a).notices := by
  match x, h with
  | Logged.mk (.ok _) _, h =>
    cases h
    rfl

def Notes (p : Notice → Prop) (x : Run α) : Prop := ∀ n ∈ x.notices, p n

section
variable {p : Notice → Prop}

theorem Notes.pure (a : α) : Notes p (pure a : Run α) := fun _ h => absurd h List.not_mem_nil

theorem Notes.throw (e : Failure) : Notes p (throw e : Run α) := fun _ h => absurd h List.not_mem_nil

theorem Notes.tell {n : Notice} (h : p n) : Notes p (tell n) := by
  intro m hm
  rw [List.mem_singleton.mp hm]
  exact h

theorem Notes.ofWritten (x : Except WriteFault α) : Notes p (ofWritten x) := by
  intro n hn
  rw [notices_ofWritten] at hn
  cases hn

theorem Notes.bind {x : Run α} {f : α → Run β} (hx : Notes p x) (hf : ∀ a, Notes p (f a)) :
    Notes p (x >>= f) := by
  match x, hx with
  | Logged.mk (.ok a) _, hx =>
    intro n hn
    rcases List.mem_append.mp hn with hn | hn
    · exact hx n hn
    · exact hf a n hn
  | Logged.mk (.error _) log, hx =>
    intro n hn
    rcases List.mem_append.mp hn with hn | hn
    · exact hx n hn
    · cases hn

theorem Notes.mapM {f : α → Run β} (hf : ∀ a, Notes p (f a)) (xs : List α) :
    Notes p (xs.mapM f) := by
  induction xs with
  | nil => exact .pure []
  | cons x xs ih =>
    rw [List.mapM_cons]
    exact (hf x).bind fun _ => ih.bind fun _ => .pure _

end

end ApiTypes.Run
