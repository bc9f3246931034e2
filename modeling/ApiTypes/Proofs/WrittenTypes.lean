import Mathlib.Data.Option.Basic
import ApiTypes.TypeExpr.Declared
import ApiTypes.TypeExpr.Validator
import ApiTypes.Proofs.TypeTree

/-!
# Types that are written

A type has no text if one of its literals or of the examples in its comments has none. Where the literals
are scalars, they are too long integers.
-/

namespace ApiTypes

/-! ## Faults of parts -/

theorem findSome?_cons_eq_orElse {α β : Type} (f : α → Option β) (a : α) (as : List α) :
    (a :: as).findSome? f = (f a <|> as.findSome? f) := by
  rw [List.findSome?_cons]
  cases f a <;> rfl

/-- Where `p` holds there is no fault, and elsewhere a number has too many digits. -/
def TooLongUnless (p : Prop) (fault : Option WriteFault) : Prop :=
  (p → fault = none) ∧ (¬ p → fault = some .tooLong)

namespace TooLongUnless

variable {p q : Prop} {fault fault' : Option WriteFault}

theorem none (h : p) : TooLongUnless p .none := ⟨fun _ => rfl, fun hp => absurd h hp⟩

theorem orElse (h : TooLongUnless p fault) (h' : TooLongUnless q fault') :
    TooLongUnless (p ∧ q) (fault <|> fault') := by
  by_cases hp : p
  · rw [h.1 hp, Option.orElse_eq_orElse, Option.orElse_none, and_iff_right hp]
    exact h'
  · rw [h.2 hp, Option.orElse_eq_orElse, Option.orElse_some]
    exact ⟨fun hpq => absurd hpq.1 hp, fun _ => rfl⟩

theorem findSome? {α : Type} {p : α → Prop} {fault : α → Option WriteFault} {as : List α}
    (h : ∀ a ∈ as, TooLongUnless (p a) (fault a)) :
    TooLongUnless (∀ a ∈ as, p a) (as.findSome? fault) := by
  induction as with
  | nil => exact none nofun
  | cons a as ih =>
    obtain ⟨ha, has⟩ := List.forall_mem_cons.mp h
    rw [findSome?_cons_eq_orElse, List.forall_mem_cons]
    exact ha.orElse (ih has)

theorem eq_none_iff (h : TooLongUnless p fault) : fault = .none ↔ p := by
  refine ⟨fun hnone => ?_, h.1⟩
  by_contra hp
  rw [h.2 hp] at hnone
  cases hnone

end TooLongUnless

namespace TypeExpr

variable {i : Info} {ts : List TypeExpr} {ps : List (String × TypeExpr)}

theorem membersFault?_eq (ts : List TypeExpr) :
    membersFault? ts = ts.findSome? declaredFault? := by
  induction ts with
  | nil => rfl
  | cons t ts ih => rw [membersFault?, ih, findSome?_cons_eq_orElse]

theorem validatorsFault?_eq (ts : List TypeExpr) :
    validatorsFault? ts = ts.findSome? validatorFault? := by
  induction ts with
  | nil => rfl
  | cons t ts ih => rw [validatorsFault?, ih, findSome?_cons_eq_orElse]

def sampleFault? (t : TypeExpr) : Option WriteFault := t.info.sample.bind Document.jsonFault?

theorem propertiesFault?_eq (ps : List (String × TypeExpr)) :
    propertiesFault? ps = ps.findSome? fun p => p.2.sampleFault? <|> p.2.declaredFault? := by
  induction ps with
  | nil => rfl
  | cons p ps ih =>
    rw [propertiesFault?, ih, findSome?_cons_eq_orElse, sampleFault?]
    cases p.2.info.sample.bind Document.jsonFault? <;> rfl

theorem propertyValidatorsFault?_eq (ps : List (String × TypeExpr)) :
    propertyValidatorsFault? ps = ps.findSome? fun p => p.2.validatorFault? := by
  induction ps with
  | nil => rfl
  | cons p ps ih => rw [propertyValidatorsFault?, ih, findSome?_cons_eq_orElse]

/-! ## Written types -/

def HasScalar : TypeExpr → Prop
  | literal _ value => ∃ s, value.here = .scalar s
  | _ => True

/-- No literal is an integer with more digits than are written. -/
def IsShort : TypeExpr → Prop
  | literal _ value => ∀ n, value.here = .scalar (.int n) → isTooLong n = false
  | _ => True

def HasNoParams : TypeExpr → Prop
  | generic _ _ _ => False
  | _ => True

def HasWrittenSamples : TypeExpr → Prop
  | object _ ps _ => ∀ p ∈ ps, p.2.sampleFault? = none
  | _ => True

theorem tooLongUnless_jsonFault? {value : Document} {s : Scalar} (hs : value.here = .scalar s) :
    TooLongUnless (IsShort (literal i value)) value.jsonFault? := by
  have hfault : value.jsonFault? = s.fault? := by
    rw [Document.jsonFault?, Document.snapshot, hs]
    rfl
  rw [hfault]
  cases s with
  | int n =>
    have hshort : IsShort (literal i value) ↔ isTooLong n = false := by
      simp [IsShort, hs]
    rw [hshort, Scalar.fault?]
    refine ⟨fun h => ?_, fun h => ?_⟩
    · rw [h, if_neg Bool.false_ne_true]
    · rw [if_pos (Bool.of_not_eq_false h)]
  | _ => exact .none (by simp [IsShort, hs])

theorem tooLongUnless_members {fault : TypeExpr → Option WriteFault}
    (h : ∀ t ∈ ts, TooLongUnless (t.Every IsShort) (fault t)) :
    TooLongUnless (EveryMember IsShort ts) (ts.findSome? fault) := by
  rw [everyMember_iff]
  exact .findSome? h

theorem tooLongUnless_properties {fault : String × TypeExpr → Option WriteFault}
    (h : ∀ p ∈ ps, TooLongUnless (p.2.Every IsShort) (fault p)) :
    TooLongUnless (EveryProperty IsShort ps) (ps.findSome? fault) := by
  rw [everyProperty_iff]
  exact .findSome? h

theorem tooLongUnless_declared {t : TypeExpr} (h : t.Every HasScalar)
    (hsamples : t.Every HasWrittenSamples) : TooLongUnless (t.Every IsShort) t.declaredFault? := by
  induction t with
  | identifier i name => exact .none trivial
  | literal i value =>
    obtain ⟨s, hs⟩ := h
    exact tooLongUnless_jsonFault? hs
  | array i t ih => exact (TooLongUnless.none trivial).orElse (ih h.2 hsamples.2)
  | union i ts ih | intersection i ts ih =>
    rw [declaredFault?, membersFault?_eq]
    exact (TooLongUnless.none trivial).orElse (tooLongUnless_members fun t ht =>
      ih t ht (everyMember_iff.mp h.2 t ht) (everyMember_iff.mp hsamples.2 t ht))
  | generic i base ts ihbase ih =>
    have hparams := tooLongUnless_members fun t ht =>
      ih t ht (everyMember_iff.mp h.2.2 t ht) (everyMember_iff.mp hsamples.2.2 t ht)
    -- the parameters come first, so a fault of theirs hides one of the base
    rw [declaredFault?, membersFault?_eq, Every, and_comm (a := Every IsShort base)]
    exact (TooLongUnless.none trivial).orElse (hparams.orElse (ihbase h.2.1 hsamples.2.1))
  | object i ps required ih =>
    rw [declaredFault?, propertiesFault?_eq]
    refine (TooLongUnless.none trivial).orElse (tooLongUnless_properties fun p hp => ?_)
    rw [hsamples.1 p hp]
    exact ih p hp (everyProperty_iff.mp h.2 p hp) (everyProperty_iff.mp hsamples.2 p hp)

theorem tooLongUnless_validator {t : TypeExpr} (h : t.Every HasScalar)
    (hparams : t.Every HasNoParams) : TooLongUnless (t.Every IsShort) t.validatorFault? := by
  induction t with
  | identifier i name => exact .none trivial
  | literal i value =>
    obtain ⟨s, hs⟩ := h
    exact tooLongUnless_jsonFault? hs
  | array i t ih => exact (TooLongUnless.none trivial).orElse (ih h.2 hparams.2)
  | union i ts ih | intersection i ts ih =>
    rw [validatorFault?, validatorsFault?_eq]
    exact (TooLongUnless.none trivial).orElse (tooLongUnless_members fun t ht =>
      ih t ht (everyMember_iff.mp h.2 t ht) (everyMember_iff.mp hparams.2 t ht))
  | generic i base ts _ _ => exact hparams.1.elim
  | object i ps required ih =>
    rw [validatorFault?, propertyValidatorsFault?_eq]
    exact (TooLongUnless.none trivial).orElse (tooLongUnless_properties fun p hp =>
      ih p hp (everyProperty_iff.mp h.2 p hp) (everyProperty_iff.mp hparams.2 p hp))

theorem hasWrittenSamples_of_declared {t : TypeExpr} (h : t.declaredFault? = none) :
    t.Every HasWrittenSamples := by
  have hmembers : ∀ ts : List TypeExpr,
      (∀ t ∈ ts, t.declaredFault? = none → t.Every HasWrittenSamples) →
      membersFault? ts = none → EveryMember HasWrittenSamples ts := by
    intro ts ih h
    rw [membersFault?_eq, List.findSome?_eq_none_iff] at h
    exact everyMember_iff.mpr fun t ht => ih t ht (h t ht)
  induction t with
  | identifier i name => trivial
  | literal i value => trivial
  | array i t ih => exact ⟨trivial, ih h⟩
  | union i ts ih => exact ⟨trivial, hmembers ts ih h⟩
  | intersection i ts ih => exact ⟨trivial, hmembers ts ih h⟩
  | generic i base ts ihbase ih =>
    obtain ⟨hparams, hbase⟩ := (Option.orElse_eq_none _ _).mp h
    exact ⟨trivial, ihbase hbase, hmembers ts ih hparams⟩
  | object i ps required ih =>
    rw [declaredFault?, propertiesFault?_eq, List.findSome?_eq_none_iff] at h
    have hparts := fun p hp => (Option.orElse_eq_none _ _).mp (h p hp)
    exact ⟨fun p hp => (hparts p hp).1,
      everyProperty_iff.mpr fun p hp => ih p hp (hparts p hp).2⟩

theorem declaredFault?_eq_none_iff {t : TypeExpr} (h : t.Every HasScalar) :
    t.declaredFault? = none ↔ t.Every IsShort ∧ t.Every HasWrittenSamples := by
  refine ⟨fun hnone => ?_, fun ⟨hshort, hsamples⟩ => (tooLongUnless_declared h hsamples).1 hshort⟩
  have hsamples := hasWrittenSamples_of_declared hnone
  exact ⟨(tooLongUnless_declared h hsamples).eq_none_iff.mp hnone, hsamples⟩

end TypeExpr

end ApiTypes
