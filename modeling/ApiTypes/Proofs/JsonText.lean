import Mathlib.Algebra.Group.Nat.Defs
import ApiTypes.Load
import ApiTypes.Proofs.Inside
import ApiTypes.Proofs.JsonSchema

/-!
# Texts of JSON

Whatever is read from a text of JSON is a value of JSON, and its integers can be written: one of too
many digits is refused where it is read.
-/

namespace ApiTypes

/-! ## Values of JSON -/

namespace Value

mutual

def isJson : Value → Bool
  | .scalar (.date _) | .scalar (.dateTime _) | .scalar (.bytes _) => false
  | .scalar _ => true
  | .seq items => areJson items
  | .map entries => entriesAreJson entries
  | .tuple _ | .set _ | .link _ => false

def areJson : List Value → Bool
  | [] => true
  | v :: vs => isJson v && areJson vs

def entriesAreJson : List (Scalar × Value) → Bool
  | [] => true
  | (k, v) :: es => k.text?.isSome && isJson v && entriesAreJson es

end

theorem areJson_iff {vs : List Value} : areJson vs = true ↔ ∀ v ∈ vs, v.isJson = true := by
  induction vs with
  | nil => simp [areJson]
  | cons v vs ih => simp [areJson, ih]

theorem entriesAreJson_iff {es : List (Scalar × Value)} : entriesAreJson es = true ↔
    ∀ e ∈ es, (∃ key, e.1 = .text key) ∧ e.2.isJson = true := by
  have htext : ∀ k : Scalar, k.text?.isSome = true ↔ ∃ key, k = .text key := by
    intro k
    cases k <;> simp [Scalar.text?]
  induction es with
  | nil => simp [entriesAreJson]
  | cons e es ih => simp [entriesAreJson, ih, htext]

theorem isJson_iff {v : Value} : v.isJson = true ↔ v.IsJson := by
  constructor
  · intro h
    induction v with
    | scalar s =>
      cases s with
      | null => exact .null
      | bool b => exact .bool b
      | int n => exact .int n
      | float x => exact .float x
      | nan origin => exact .nan origin
      | text s => exact .text s
      | _ => cases h
    | seq items ih =>
      rw [isJson, areJson_iff] at h
      exact .seq fun v hv => ih v hv (h v hv)
    | map entries ih =>
      rw [isJson, entriesAreJson_iff] at h
      exact .map (fun e he => (h e he).1) fun e he => ih e he (h e he).2
    | tuple _ | set _ | link _ => cases h
  · intro h
    induction h with
    | seq _ ih => rwa [isJson, areJson_iff]
    | map hkeys _ ih =>
      rw [isJson, entriesAreJson_iff]
      exact fun e he => ⟨hkeys e he, ih e he⟩
    | _ => rfl

instance (v : Value) : Decidable v.IsJson := decidable_of_iff _ isJson_iff

def IsWritableJson (v : Value) : Prop := v.IsJson ∧ v.fault? = none

instance (v : Value) : Decidable v.IsWritableJson := inferInstanceAs (Decidable (_ ∧ _))

end Value

namespace Document

def IsWritableJson (d : Document) : Prop := d.here.IsWritableJson

instance (d : Document) : Decidable d.IsWritableJson := inferInstanceAs (Decidable (_ ∧ _))

theorem hereditary_isWritableJson : Hereditary IsWritableJson :=
  hereditary_here Value.hereditary_writable

namespace IsWritableJson

variable {d : Document} (h : d.IsWritableJson)
include h

theorem exists_typeOf : ∃ t, (Schema.typeOf d).result = .ok t := Schema.exists_typeAt h.1 _ _ _

theorem writable_typeOf {t : TypeExpr} (ht : (Schema.typeOf d).result = .ok t) : t.Writable :=
  Schema.writable_typeAt ht h.1 h.2

theorem exists_written : ∃ s, d.written = .ok s := by
  have hfault : d.fault? = none := by
    rw [fault?, snapshot_eq_here h.1]
    exact h.2
  rw [written, hfault]
  exact ⟨_, rfl⟩

theorem exists_key_written {es : List (Scalar × Document)} (hes : d.entries? = some es)
    {e : Scalar × Document} (he : e ∈ es) : ∃ key, e.1.written = .ok key := by
  obtain ⟨key, hkey⟩ := isJson_keys h.1 hes e he
  rw [hkey]
  exact ⟨key, rfl⟩

end IsWritableJson

theorem IsWritableJson.inside {d x : Document} (h : d.IsWritableJson) (hx : d.Inside x) :
    x.IsWritableJson := by
  induction hx with
  | self => exact h
  | item _ hds hy ih => exact hereditary_isWritableJson.items ih hds _ hy
  | entry _ hes he ih => exact hereditary_isWritableJson.entries ih hes _ he

end Document

/-! ## Tokens -/

namespace Json

theorem digitsValue_lt {ds : List Char} (h : ∀ c ∈ ds, c.isDigit = true) :
    Text.digitsValue ds < 10 ^ ds.length := by
  have hfold : ∀ (ds : List Char) (n : Nat), (∀ c ∈ ds, c.isDigit = true) →
      ds.foldl (fun n d => 10 * n + (d.toNat - '0'.toNat)) n < (n + 1) * 10 ^ ds.length := by
    intro ds
    induction ds with
    | nil => intro n _; simp
    | cons c ds ih =>
      intro n h
      obtain ⟨hc, hds⟩ := List.forall_mem_cons.mp h
      have hdigit : c.toNat - '0'.toNat < 10 := by
        simp only [Char.isDigit, Bool.and_eq_true, decide_eq_true_eq] at hc
        have hc9 : c.toNat ≤ 57 := UInt32.le_iff_toNat_le.mp hc.2
        have h0 : '0'.toNat = 48 := rfl
        omega
      calc (c :: ds).foldl (fun n d => 10 * n + (d.toNat - '0'.toNat)) n
          < (10 * n + (c.toNat - '0'.toNat) + 1) * 10 ^ ds.length := ih _ hds
        _ ≤ ((n + 1) * 10) * 10 ^ ds.length := Nat.mul_le_mul_right _ (by omega)
        _ = (n + 1) * 10 ^ (c :: ds).length := by
          rw [List.length_cons, Nat.pow_succ', Nat.mul_assoc]
  have := hfold ds 0 h
  rwa [Nat.zero_add, Nat.one_mul] at this

theorem isTooLong_digitsValue {ds : List Char} (h : ∀ c ∈ ds, c.isDigit = true)
    (hlength : ds.length ≤ maxDigits) (negative : Bool) :
    isTooLong (if negative then -(Text.digitsValue ds : Int) else Text.digitsValue ds) = false := by
  have hlt : Text.digitsValue ds < 10 ^ maxDigits :=
    (digitsValue_lt h).trans_le (Nat.pow_le_pow_right (by decide) hlength)
  have habs : (if negative then -(Text.digitsValue ds : Int) else Text.digitsValue ds).natAbs =
      Text.digitsValue ds := by
    split <;> simp
  rw [isTooLong, habs, decide_eq_false_iff_not]
  exact Nat.not_le.mpr hlt

def Token.IsSound : Token → Prop
  | .leaf s => (Value.scalar s).IsWritableJson
  | _ => True

theorem isSound_int {n : Int} (h : isTooLong n = false) : (Token.leaf (.int n)).IsSound :=
  ⟨.int n, by rw [Value.fault?, Scalar.fault?, h]; rfl⟩

theorem isSound_readNumber {negative : Bool} {cs : List Char} {t : Token × List Char}
    (h : readNumber (some maxDigits) negative cs = some t) : t.1.IsSound := by
  -- only a whole number is limited in its digits
  have hint : ∀ {whole : List Char}, (∀ c ∈ whole, c.isDigit = true) →
      ∀ (isInt : Bool) (x : Float), Token.IsSound
        (if isInt then
          if (some maxDigits).any (· < whole.length) then .broken .tooLong
          else .leaf (.int (if negative then -(Text.digitsValue whole : Int)
            else Text.digitsValue whole))
        else .leaf (.float x)) := by
    intro whole hwhole isInt x
    split
    · split
      · trivial
      · rename_i hlength
        refine isSound_int (isTooLong_digitsValue hwhole ?_ negative)
        simpa using hlength
    · exact ⟨.float x, rfl⟩
  unfold readNumber at h
  split at h
  rename_i whole rest hspan
  have hwhole : ∀ c ∈ whole, c.isDigit = true := by
    split at hspan
    · cases hspan
      simp
    · cases hspan
      exact fun c hc => List.mem_takeWhile_imp hc
  split at h
  · cases h
  dsimp only at h
  cases h
  exact hint hwhole _ _

theorem isSound_constant {cs : List Char} {t : Token × Nat} (h : constantToken? cs = some t) :
    t.1.IsSound := by
  have hsound : ∀ e ∈ constants, (Value.scalar e.2).IsWritableJson := by
    unfold constants
    simp only [List.forall_mem_cons, List.not_mem_nil, false_implies, implies_true, and_true]
    exact ⟨⟨.null, rfl⟩, ⟨.bool _, rfl⟩, ⟨.bool _, rfl⟩, ⟨.nan _, rfl⟩, ⟨.float _, rfl⟩,
      ⟨.float _, rfl⟩⟩
  obtain ⟨e, he, h⟩ := List.exists_of_findSome?_eq_some h
  dsimp only at h
  split at h
  · cases h
    exact hsound e he
  · cases h

theorem isSound_readToken (place : Nat) (c : Char) (cs : List Char) :
    (readToken (some maxDigits) place c cs).1.IsSound := by
  unfold readToken
  iterate 6
    split
    · trivial
  split
  · unfold quotedToken
    dsimp only
    split
    · exact ⟨.text _, rfl⟩
    · trivial
  · cases hconstant : constantToken? (c :: cs) with
    | some t => exact isSound_constant hconstant
    | none =>
      cases hnumber : numberToken? (some maxDigits) (c :: cs) with
      | none => trivial
      | some t =>
        obtain ⟨t, ht, rfl⟩ := Option.map_eq_some_iff.mp hnumber
        show t.1.IsSound
        split at ht
        · exact isSound_readNumber ht
        · exact isSound_readNumber ht

theorem isSound_of_mem_tokens {cs : List Char} {t : Nat × Token}
    (h : t ∈ tokens (some maxDigits) cs) : t.2.IsSound := by
  have hcut : ∀ (fuel place : Nat) (cs : List Char), ∀ t ∈ cut (some maxDigits) fuel place cs,
      t.2.IsSound := by
    intro fuel
    induction fuel with
    | zero =>
      intro place cs t ht
      rw [List.mem_singleton.mp ht]
      trivial
    | succ fuel ih =>
      intro place cs t ht
      unfold cut at ht
      dsimp only at ht
      split at ht
      · rw [List.mem_singleton.mp ht]
        trivial
      · rename_i c rest _
        rcases List.mem_cons.mp ht with rfl | ht
        · exact isSound_readToken _ _ _
        · exact ih _ _ t ht
  exact hcut _ _ _ t h

/-! ## Containers part way through -/

def keyed (es : List (String × Value)) : List (Scalar × Value) := es.map fun e => (.text e.1, e.2)

theorem ofList_keyed (es : List (String × Value)) :
    Table.ofList (keyed es) = keyed (Table.ofList es) := by
  have hput : ∀ (t : Table String Value) (k : String) (v : Value),
      Table.put (keyed t) (.text k) v = keyed (Table.put t k v) := by
    intro t k v
    induction t with
    | nil => rfl
    | cons e t ih =>
      have hkey : ((Scalar.text e.1 == Scalar.text k) : Bool) = (e.1 == k) := rfl
      rw [keyed, List.map_cons, Table.put, Table.put, hkey]
      split
      · rfl
      · rw [← keyed, ih]
        rfl
  have hfold : ∀ (es : List (String × Value)) (t : Table String Value),
      (keyed es).foldl (fun t e => Table.put t e.1 e.2) (keyed t) =
        keyed (es.foldl (fun t e => Table.put t e.1 e.2) t) := by
    intro es
    induction es with
    | nil => intro t; rfl
    | cons e es ih =>
      intro t
      have hcons : keyed (e :: es) = (.text e.1, e.2) :: keyed es := rfl
      rw [hcons, List.foldl_cons, List.foldl_cons, hput, ih]
  exact hfold es []

/-- `P` holds of leaves that a reader takes, and goes from the parts of a container to the container;
no key of a mapping comes twice. -/
structure IsClosed (P : Value → Prop) : Prop where
  leaf : ∀ {s}, (Value.scalar s).IsWritableJson → P (.scalar s)
  seq : ∀ {vs}, (∀ v ∈ vs, P v) → P (.seq vs)
  map : ∀ {es : List (String × Value)}, (es.map (·.1)).Nodup → (∀ e ∈ es, P e.2) →
    P (.map (keyed es))

def IsEntry (P : Value → Prop) (e : Scalar × Value) : Prop := (∃ key, e.1 = .text key) ∧ P e.2

theorem exists_keyed {P : Value → Prop} {es : List (Scalar × Value)}
    (h : ∀ e ∈ es, IsEntry P e) : ∃ es', es = keyed es' ∧ ∀ e ∈ es', P e.2 := by
  induction es with
  | nil => exact ⟨[], rfl, nofun⟩
  | cons e es ih =>
    obtain ⟨⟨⟨key, hkey⟩, hP⟩, h⟩ := List.forall_mem_cons.mp h
    obtain ⟨es', rfl, hes'⟩ := ih h
    have he : e = (.text key, e.2) := Prod.ext hkey rfl
    refine ⟨(key, e.2) :: es', ?_, List.forall_mem_cons.mpr ⟨hP, hes'⟩⟩
    rw [he]
    rfl

theorem IsClosed.map_ofList {P : Value → Prop} (hP : IsClosed P) {es : List (Scalar × Value)}
    (h : ∀ e ∈ es, IsEntry P e) : P (.map (Table.ofList es)) := by
  obtain ⟨es', rfl, hes'⟩ := exists_keyed h
  rw [ofList_keyed]
  exact hP.map (Table.nodup_keys_ofList es') (Table.forall_ofList hes')

def Frame.IsSound (P : Value → Prop) : Frame → Prop
  | .seq items => ∀ v ∈ items, P v
  | .map entries _ => ∀ e ∈ entries, IsEntry P e

def Frame.IsReady : Frame → Prop
  | .seq _ => True
  | .map _ key => ∃ s, key = .text s

/-- Only the innermost mapping may have no key yet, where its first one is awaited. -/
structure Reader.IsSound (P : Value → Prop) (r : Reader) : Prop where
  frames : ∀ f ∈ r.frames, f.IsSound P
  inside : r.awaited = .firstKey → ∀ f ∈ r.frames.tail, f.IsReady
  ready : r.awaited ≠ .firstKey → ∀ f ∈ r.frames, f.IsReady
  result : P r.result

namespace Reader

variable {P : Value → Prop}

theorem isSound_start (hP : IsClosed P) : start.IsSound P where
  frames := by simp [start]
  inside := by simp [start]
  ready := by simp [start]
  result := hP.leaf ⟨.null, rfl⟩

theorem isSound_accept {r : Reader} {v : Value} (hframes : ∀ f ∈ r.frames, f.IsSound P)
    (hready : ∀ f ∈ r.frames, f.IsReady) (hresult : P r.result) (hv : P v) :
    (r.accept v).IsSound P := by
  obtain ⟨frames, awaited, result⟩ := r
  cases frames with
  | nil => exact ⟨hframes, nofun, fun _ => hready, hv⟩
  | cons f below =>
    obtain ⟨hf, hbelow⟩ := List.forall_mem_cons.mp hframes
    obtain ⟨hkey, hbelow'⟩ := List.forall_mem_cons.mp hready
    cases f with
    | seq items =>
      exact ⟨List.forall_mem_cons.mpr ⟨List.forall_mem_cons.mpr ⟨hv, hf⟩, hbelow⟩, nofun,
        fun _ => List.forall_mem_cons.mpr ⟨trivial, hbelow'⟩, hresult⟩
    | map entries key =>
      exact ⟨List.forall_mem_cons.mpr ⟨List.forall_mem_cons.mpr ⟨⟨hkey, hv⟩, hf⟩, hbelow⟩, nofun,
        fun _ => List.forall_mem_cons.mpr ⟨hkey, hbelow'⟩, hresult⟩

variable {r : Reader} (h : r.IsSound P)
include h

theorem IsSound.below {f : Frame} {below : List Frame} (hr : r.frames = f :: below) :
    f.IsSound P ∧ (∀ g ∈ below, g.IsSound P) ∧ ∀ g ∈ below, g.IsReady := by
  have hframes := h.frames
  rw [hr] at hframes
  obtain ⟨hf, hbelow⟩ := List.forall_mem_cons.mp hframes
  refine ⟨hf, hbelow, ?_⟩
  by_cases ha : r.awaited = .firstKey
  · have := h.inside ha
    rwa [hr] at this
  · have := h.ready ha
    rw [hr] at this
    exact (List.forall_mem_cons.mp this).2

theorem isSound_closeSeq (hP : IsClosed P) {r' : Reader} (hr : r.closeSeq = some r') : r'.IsSound P := by
  unfold closeSeq at hr
  split at hr
  · rename_i items below hframes
    cases hr
    obtain ⟨hitems, hbelow, hready⟩ := h.below hframes
    refine isSound_accept hbelow hready h.result (hP.seq fun v hv => ?_)
    exact hitems v (List.mem_reverse.mp hv)
  · cases hr

theorem isSound_closeMap (hP : IsClosed P) {r' : Reader} (hr : r.closeMap = some r') : r'.IsSound P := by
  unfold closeMap at hr
  split at hr
  · rename_i entries key below hframes
    cases hr
    obtain ⟨hentries, hbelow, hready⟩ := h.below hframes
    refine isSound_accept hbelow hready h.result (hP.map_ofList ?_)
    exact fun e he => hentries e (List.mem_reverse.mp he)
  · cases hr

theorem isSound_readValue (hP : IsClosed P) {place : Nat} {t : Token} {r' : Reader}
    (ht : t.IsSound) (ha : r.awaited ≠ .firstKey) (hr : r.readValue place t = .ok r') : r'.IsSound P := by
  have hready := h.ready ha
  unfold readValue at hr
  split at hr
  · cases hr
    exact isSound_accept h.frames hready h.result (hP.leaf ht)
  · cases hr
    exact ⟨List.forall_mem_cons.mpr ⟨nofun, h.frames⟩, nofun,
      fun _ => List.forall_mem_cons.mpr ⟨trivial, hready⟩, h.result⟩
  · cases hr
    exact ⟨List.forall_mem_cons.mpr ⟨nofun, h.frames⟩, fun _ => hready,
      fun hne => absurd rfl hne, h.result⟩
  · cases hr
  · cases hr

theorem isSound_readKey {place : Nat} {t : Token} {r' : Reader}
    (hr : r.readKey place t = .ok r') : r'.IsSound P := by
  unfold readKey at hr
  split at hr
  · cases hr
    unfold setKey
    split
    · rename_i entries key below hframes
      obtain ⟨hentries, hbelow, hready⟩ := h.below hframes
      exact ⟨List.forall_mem_cons.mpr ⟨hentries, hbelow⟩, nofun,
        fun _ => List.forall_mem_cons.mpr ⟨⟨_, rfl⟩, hready⟩, h.result⟩
    · exact h
  · cases hr
  · cases hr

theorem IsSound.await (ha : r.awaited ≠ .firstKey) {a : Awaited} (hne : a ≠ .firstKey) :
    Reader.IsSound P { r with awaited := a } :=
  ⟨h.frames, fun he => absurd he hne, fun _ => h.ready ha, h.result⟩

theorem isSound_step (hP : IsClosed P) {t : Nat × Token} {r' : Reader} (ht : t.2.IsSound)
    (hr : r.step t = .ok r') : r'.IsSound P := by
  obtain ⟨place, t⟩ := t
  have hclosed : ∀ {x : Option Reader} {fault : Fault}, (∀ r', x = some r' → r'.IsSound P) →
      (x.map Except.ok).getD (.error fault) = .ok r' → r'.IsSound P := by
    intro x fault hx hr
    cases x with
    | none => cases hr
    | some r'' =>
      cases hr
      exact hx _ rfl
  have hended : ∀ {x : Option Reader}, (∀ r', x = some r' → r'.IsSound P) →
      .ok (x.getD r) = (.ok r' : Except Fault Reader) → r'.IsSound P := by
    intro x hx hr
    cases hr
    cases x with
    | none => exact h
    | some r'' => exact hx _ rfl
  have hvalue : ∀ {a : Awaited}, r.awaited = a → a ≠ .firstKey →
      r.readValue place t = .ok r' → r'.IsSound P :=
    fun ha hne => isSound_readValue h hP ht (ha ▸ hne)
  have hawait : ∀ {a b : Awaited}, r.awaited = a → a ≠ .firstKey → b ≠ .firstKey →
      Reader.IsSound P { r with awaited := b } :=
    fun ha hne => h.await (ha ▸ hne)
  unfold step at hr
  dsimp only at hr
  -- the cases follow what is awaited
  split at hr
  · exact hvalue (a := .value) ‹_› nofun hr
  · exact hended (fun _ => isSound_closeSeq h hP) hr
  · exact hvalue (a := .item) ‹_› nofun hr
  · exact hended (fun _ => isSound_closeMap h hP) hr
  · exact isSound_readKey h hr
  · exact isSound_readKey h hr
  · cases hr
    exact hawait (a := .colon) ‹_› nofun nofun
  · cases hr
  · cases hr
    unfold separate
    split
    · exact hawait (a := .separator) ‹_› nofun nofun
    · exact hawait (a := .separator) ‹_› nofun nofun
  · exact hclosed (fun _ => isSound_closeSeq h hP) hr
  · exact hclosed (fun _ => isSound_closeMap h hP) hr
  · cases hr
  · cases hr
    exact h
  · cases hr

end Reader

/-- What is kept from the parts of a container to the container holds of every value that is read. -/
theorem read_induction {P : Value → Prop} (hP : IsClosed P) {cs : List Char} {v : Value}
    (h : read (some maxDigits) cs = .ok v) : P v := by
  -- the invariant is that all values on the stack satisfy `P`
  have hrun : ∀ {ts : List (Nat × Token)} {r r' : Reader}, (∀ t ∈ ts, t.2.IsSound) →
      r.IsSound P → ts.foldlM Reader.step r = .ok r' → r'.IsSound P := by
    intro ts
    induction ts with
    | nil =>
      intro r r' _ hr h
      cases h
      exact hr
    | cons t ts ih =>
      intro r r' hts hr h
      obtain ⟨ht, hts⟩ := List.forall_mem_cons.mp hts
      rw [List.foldlM_cons] at h
      cases hstep : r.step t with
      | error fault =>
        rw [hstep] at h
        cases h
      | ok next =>
        rw [hstep] at h
        exact ih hts (Reader.isSound_step hr hP ht hstep) h
  unfold read at h
  split at h
  · cases h
  · cases hr : (tokens (some maxDigits) cs).foldlM Reader.step .start with
    | error fault =>
      rw [hr] at h
      cases h
    | ok r =>
      rw [hr] at h
      cases h
      exact (hrun (fun _ => isSound_of_mem_tokens) (Reader.isSound_start hP) hr).result

theorem isClosed_isWritableJson : IsClosed Value.IsWritableJson where
  leaf := id
  seq h := ⟨.seq fun v hv => (h v hv).1, Value.itemsFault?_eq_none.mpr fun v hv => (h v hv).2⟩
  map := by
    intro es _ h
    refine ⟨.map ?_ ?_, Value.entriesFault?_eq_none.mpr ?_⟩
    · exact List.forall_mem_map.mpr fun e _ => ⟨e.1, rfl⟩
    · exact List.forall_mem_map.mpr fun e he => (h e he).1
    · exact List.forall_mem_map.mpr fun e he => ⟨rfl, (h e he).2⟩

end Json

theorem read_of_readJson {path : Path} {cs : List Char} {d : Document}
    (h : readJson path cs = .ok d) : ∃ v, Json.read (some maxDigits) cs = .ok v ∧ d = .ofValue v := by
  unfold readJson at h
  split at h
  · rename_i v hv
    cases h
    exact ⟨v, hv, rfl⟩
  · cases h
  · cases h

/-- Every value read from a text of JSON is one of JSON that can be written. -/
theorem isWritableJson_of_readJson {path : Path} {cs : List Char} {d : Document}
    (h : readJson path cs = .ok d) : d.IsWritableJson := by
  obtain ⟨v, hv, rfl⟩ := read_of_readJson h
  exact Json.read_induction Json.isClosed_isWritableJson hv

end ApiTypes
