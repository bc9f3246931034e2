import Mathlib
import ApiTypes.Component.Validators
import ApiTypes.Proofs.Groups
import ApiTypes.Proofs.Lookup
import ApiTypes.Proofs.Mapping

/-!
# Declarations of validators

The text with the validators of all components is read back as constants, each with the expression
that it is declared by. A constant is declared before any other looks it up.
-/

namespace ApiTypes

namespace Expression

/-! ## Semicolons -/

def Mode.NoSemicolon : Mode → Prop
  | .arrow ls => .mark ';' ∉ ls
  | _ => True

theorem step_semicolon {r : Reader} (h : r.mode.NoSemicolon) : step r (.mark ';') = none := by
  obtain ⟨mode, outer⟩ := r
  cases mode with
  | operand =>
    cases outer with
    | nil => rfl
    | cons frame outer =>
      cases frame with
      | sequence f done isBody => cases isBody <;> cases f <;> rfl
      | field done key => rfl
  | minus => rfl
  | arrow ls =>
    cases ls with
    | nil => rfl
    | cons l ls =>
      have hl : .mark ';' ≠ l := fun hl => h (hl ▸ List.mem_cons_self)
      cases ls <;> simp [step, hl]
  | after e =>
    cases outer with
    | nil => rfl
    | cons frame outer =>
      cases frame with
      | sequence f done isBody => cases f <;> rfl
      | field done key => rfl
  | key done => cases done <;> rfl
  | colon done key => rfl

theorem opened_noSemicolon {r : Reader} {outer : List Frame} {c : Char}
    (hs : opened outer c = some r) : r.mode.NoSemicolon := by
  unfold opened at hs
  split at hs
  · cases hs
    trivial
  split at hs
  · cases hs
    trivial
  split at hs
  · cases hs
    trivial
  split at hs
  · split at hs
    · cases hs
      show Lexeme.mark ';' ∉ [Lexeme.mark ')', .mark '=', .mark '>']
      decide
    split at hs
    · cases hs
      trivial
    · cases hs
  · cases hs

theorem closed_noSemicolon {r : Reader} {outer : List Frame} {e : Expression} {c : Char}
    (hs : closed outer e c = some r) : r.mode.NoSemicolon := by
  unfold closed at hs
  split at hs
  · cases hs
    trivial
  split at hs
  · dsimp only at hs
    split at hs
    · cases hs
      trivial
    split at hs
    · cases hs
      trivial
    · cases hs
  · split at hs
    · cases hs
      trivial
    split at hs
    · cases hs
      trivial
    · cases hs
  · cases hs

theorem step_noSemicolon {r r' : Reader} {l : Lexeme} (h : r.mode.NoSemicolon)
    (hs : step r l = some r') : r'.mode.NoSemicolon := by
  unfold step at hs
  -- only the head of a function is awaited mark by mark, and no semicolon is in it
  split at hs
  · obtain ⟨e, _, rfl⟩ := Option.map_eq_some_iff.mp hs
    trivial
  · obtain ⟨s, _, rfl⟩ := Option.map_eq_some_iff.mp hs
    trivial
  · exact opened_noSemicolon hs
  · obtain ⟨e, _, rfl⟩ := Option.map_eq_some_iff.mp hs
    trivial
  · split at hs
    · cases hs
      trivial
    · cases hs
  · rename_i hmode
    split at hs
    · cases hs
      rw [hmode] at h
      exact fun hm => h (List.mem_cons_of_mem _ hm)
    · cases hs
  · cases hs
    trivial
  · exact closed_noSemicolon hs
  · obtain ⟨s, _, rfl⟩ := Option.map_eq_some_iff.mp hs
    trivial
  · cases hs
    trivial
  · cases hs
    trivial
  · cases hs

theorem notMem_of_run {r r' : Reader} {ls : List Lexeme} (h : r.mode.NoSemicolon)
    (hr : run r ls = some r') : .mark ';' ∉ ls := by
  induction ls generalizing r with
  | nil => exact List.not_mem_nil
  | cons l ls ih =>
    rw [run_cons] at hr
    obtain ⟨r'', hs, hr⟩ := Option.bind_eq_some_iff.mp hr
    intro hm
    rcases List.mem_cons.mp hm with rfl | hm
    · rw [step_semicolon h] at hs
      cases hs
    · exact ih (step_noSemicolon h hs) hr hm

end Expression

/-! ## Reading declarations -/

namespace Declaration

/-- The statements of a module, each without the semicolon that ends it, and what stands behind the
last one. -/
def statements : List Lexeme → List (List Lexeme)
  | [] => [[]]
  | l :: ls =>
    if l = .mark ';' then [] :: statements ls
    else match statements ls with
      | [] => [[l]]
      | s :: ss => (l :: s) :: ss

def ofStatement? : List Lexeme → Option (List Char × Expression)
  | .word a :: .word b :: .word name :: .mark ':' :: .word d :: .word e :: .mark '<' :: .word f ::
      .mark '>' :: .mark '=' :: ls =>
    if a = "export".toList ∧ b = "const".toList ∧ d = "z".toList ∧ e = ".ZodType".toList ∧
        f = "any".toList then
      (Expression.read? ls).map fun body => (name, body)
    else none
  | _ => none

/-- The constants that a module declares, if it declares nothing else. -/
def read? (ls : List Lexeme) : Option (List (List Char × Expression)) :=
  let ss := statements ls
  if ss.getLast? = some [] then ss.dropLast.mapM ofStatement? else none

theorem statements_append {s : List Lexeme} (h : .mark ';' ∉ s) (ls : List Lexeme) :
    statements (s ++ .mark ';' :: ls) = s :: statements ls := by
  induction s with
  | nil => simp [statements]
  | cons l s ih =>
    rw [List.mem_cons, not_or] at h
    rw [List.cons_append, statements, if_neg (Ne.symm h.1), ih h.2]

theorem statements_flatMap {ss : List (List Lexeme)} (h : ∀ s ∈ ss, .mark ';' ∉ s) :
    statements (ss.flatMap fun s => s ++ [.mark ';']) = ss ++ [[]] := by
  induction ss with
  | nil => rfl
  | cons s ss ih =>
    rw [List.flatMap_cons, List.append_assoc, List.singleton_append,
      statements_append (h s List.mem_cons_self), ih fun s' hs' => h s' (List.mem_cons_of_mem _ hs'),
      List.cons_append]

theorem read?_flatMap {ss : List (List Lexeme)} (h : ∀ s ∈ ss, .mark ';' ∉ s) :
    read? (ss.flatMap fun s => s ++ [.mark ';']) = ss.mapM ofStatement? := by
  rw [read?, statements_flatMap h]
  simp

theorem mapM_ofStatement? {α : Type} {items : List α} {s : α → List Lexeme}
    {d : α → List Char × Expression} (h : ∀ a ∈ items, ofStatement? (s a) = some (d a)) :
    (items.map s).mapM ofStatement? = some (items.map d) := by
  induction items with
  | nil => rfl
  | cons a items ih =>
    rw [List.map_cons, List.mapM_cons, h a List.mem_cons_self,
      ih fun b hb => h b (List.mem_cons_of_mem _ hb)]
    rfl

theorem read?_texts {α : Type} {items : List α} {text : α → String}
    {d : α → List Char × Expression}
    (h : ∀ a ∈ items, ∃ s, .mark ';' ∉ s ∧
      Lexeme.Spells Lexeme.never (text a).toList (s ++ [.mark ';']) ∧
      ofStatement? s = some (d a)) :
    read? (Lexeme.ofText (String.intercalate "\n\n" (items.map text))) = some (items.map d) := by
  choose! s hs hspells hd using h
  have hspace : Lexeme.Spells Lexeme.never ['\n', '\n'] [] := fun _ _ => rfl
  have hall := (Lexeme.Spells.intercalate hspace (fun _ _ => rfl) (by simp) hspells).scan_eq
  have htext : (String.intercalate "\n\n" (items.map text)).toList =
      ['\n', '\n'].intercalate (items.map fun a => (text a).toList) := by
    rw [String.toList_intercalate, List.map_map]
    rfl
  have hflat : ([] : List Lexeme).intercalate (items.map fun a => s a ++ [.mark ';']) =
      (items.map s).flatMap fun s => s ++ [.mark ';'] := by
    rw [List.flatMap_map, Lexeme.nil_intercalate, List.flatMap_def]
  rw [Lexeme.ofText, htext, hall, hflat, read?_flatMap, mapM_ofStatement? hd]
  intro l hl
  obtain ⟨a, ha, rfl⟩ := List.mem_map.mp hl
  exact hs a ha

/-! ## Texts of declarations -/

def head (name : List Char) : List Lexeme :=
  [.word "export".toList, .word "const".toList, .word name, .mark ':', .word "z".toList,
    .word ".ZodType".toList, .mark '<', .word "any".toList, .mark '>', .mark '=']

theorem ofStatement?_head (name : List Char) (ls : List Lexeme) :
    ofStatement? (head name ++ ls) = (Expression.read? ls).map fun body => (name, body) := by
  simp [ofStatement?, head]

theorem notMem_head (name : List Char) : .mark ';' ∉ head name := by
  intro h
  simp only [head, List.mem_cons, reduceCtorEq, Lexeme.mark.injEq, false_or, List.not_mem_nil,
    or_false] at h
  revert h
  decide

theorem spells_head {name : List Char} (h : ∀ c ∈ name, Lexeme.isNameChar c = true)
    (hne : name ≠ []) : Lexeme.Spells Lexeme.never
      ("export const ".toList ++ (name ++ ": z.ZodType<any> = ".toList)) (head name) := by
  have hstart : Lexeme.Spells Lexeme.never "export const ".toList
      [.word "export".toList, .word "const".toList] := fun _ _ => rfl
  have htype : Lexeme.Spells Lexeme.never ": z.ZodType<any> = ".toList
      [.mark ':', .word "z".toList, .word ".ZodType".toList, .mark '<', .word "any".toList,
        .mark '>', .mark '='] := fun _ _ => rfl
  have hname : Lexeme.Spells Lexeme.isWordChar name [.word name] := .word h hne
  exact hstart.append_never (hname.append htype (by intro c hc; cases hc; decide) (by simp))

end Declaration

namespace Component

variable {cs : List Component} {c : Component}

def HasNames (c : Component) : Prop :=
  (∀ d ∈ c.name.toList, Lexeme.isNameChar d = true) ∧ c.type.HasTypeNames

theorem constantName_names (h : c.HasNames) :
    (∀ d ∈ Expression.constantName c.name, Lexeme.isNameChar d = true) ∧
      Expression.constantName c.name ≠ [] := by
  rw [Expression.constantName_eq]
  refine ⟨fun d hd => ?_, by simp⟩
  rcases List.mem_append.mp hd with hd | hd
  · exact h.1 d hd
  · have hsuffix : ∀ d ∈ "Schema".toList, Lexeme.isNameChar d = true := List.all_eq_true.mp rfl
    exact hsuffix d hd

theorem toList_parts (a b c d e : String) : (a ++ b ++ c ++ d ++ e).toList =
    a.toList ++ (b.toList ++ c.toList) ++ (d.toList ++ e.toList) := by
  simp

theorem exists_statement (h : c.HasNames) (deferred : List String) :
    ∃ s, .mark ';' ∉ s ∧
      Lexeme.Spells Lexeme.never
        (ValidatorDeclaration.text ⟨c.name, c.type.validator deferred⟩).toList (s ++ [.mark ';']) ∧
      Declaration.ofStatement? s =
        some (Expression.constantName c.name, c.type.expression deferred) := by
  obtain ⟨ls, hs, hr⟩ := TypeExpr.reads_validator deferred h.2
  obtain ⟨hname, hne⟩ := constantName_names h
  refine ⟨Declaration.head (Expression.constantName c.name) ++ ls, ?_, ?_, ?_⟩
  · have hls := Expression.notMem_of_run (r := ⟨.operand, []⟩) trivial (hr [])
    exact fun hm => (List.mem_append.mp hm).elim (Declaration.notMem_head _) hls
  · have hend : Lexeme.Spells Lexeme.never [';'] [.mark ';'] := Expression.spells_mark rfl
    have htext : (ValidatorDeclaration.text ⟨c.name, c.type.validator deferred⟩).toList =
        "export const ".toList ++ (Expression.constantName c.name ++
          ": z.ZodType<any> = ".toList) ++ ((c.type.validator deferred).toList ++ [';']) :=
      toList_parts ..
    rw [htext, List.append_assoc]
    exact (Declaration.spells_head hname hne).append_never
      (hs.append hend (by intro d hd; cases hd; decide) (by simp))
  · have hread : Expression.read? ls = some (c.type.expression deferred) := by
      rw [Expression.read?, hr]
    rw [Declaration.ofStatement?_head, hread]
    rfl

def groupConstants (group : List Component) : List (List Char × Expression) :=
  group.map fun c => (Expression.constantName c.name, c.type.expression (group.map (·.name)))

theorem read_validators (h : ∀ c ∈ (groups cs).flatten, c.HasNames) :
    Declaration.read? (Lexeme.ofText (validatorsText cs)) =
      some ((groups cs).flatMap groupConstants) := by
  -- every component with the names that are deferred in its validator
  let members := (groups cs).flatMap fun g => g.map fun c => (c, g.map (·.name))
  have hmembers : ∀ m ∈ members, m.1.HasNames := by
    intro m hm
    obtain ⟨g, hg, hm⟩ := List.mem_flatMap.mp hm
    obtain ⟨c, hc, rfl⟩ := List.mem_map.mp hm
    exact h c (List.mem_flatten_of_mem hg hc)
  have hread := Declaration.read?_texts fun m hm => exists_statement (hmembers m hm) m.2
  have htexts : (validatorDeclarations cs).map ValidatorDeclaration.text = members.map fun m =>
      ValidatorDeclaration.text ⟨m.1.name, m.1.type.validator m.2⟩ := by
    simp only [validatorDeclarations, groupValidators, members, List.map_flatMap, List.map_map]
    rfl
  have hconstants : (groups cs).flatMap groupConstants = members.map fun m =>
      (Expression.constantName m.1.name, m.1.type.expression m.2) := by
    simp only [members, List.map_flatMap, List.map_map]
    rfl
  rw [validatorsText, htexts, hconstants, hread]

/-! ## Collected components -/

theorem hasNames_readFrom {e : Scalar × Document} {c : Component} (h : ReadFrom e c) :
    c.HasNames := by
  obtain ⟨key, _, hname⟩ := h.name
  refine ⟨fun d hd => ?_, Schema.hasTypeNames_typeAt h.type⟩
  rw [hname] at hd
  exact Schema.isNameChar_of_isWordChar (Schema.isWordChar_sanitize key d hd)

/-! ## Order -/

theorem split_flatMap {α β : Type} {f : α → List β} {xs : List α} {before after : List β} {d : β}
    (h : xs.flatMap f = before ++ d :: after) :
    ∃ pre x post, xs = pre ++ x :: post ∧ d ∈ f x ∧ ∀ y ∈ pre, ∀ b ∈ f y, b ∈ before := by
  induction xs generalizing before with
  | nil => simp at h
  | cons x xs ih =>
    rw [List.flatMap_cons, List.append_eq_append_iff] at h
    rcases h with ⟨before', rfl, h⟩ | ⟨bs, hx, h⟩
    · obtain ⟨pre, y, post, rfl, hy, hpre⟩ := ih h
      refine ⟨x :: pre, y, post, rfl, hy, List.forall_mem_cons.mpr ⟨?_, ?_⟩⟩
      · exact fun b hb => List.mem_append_left _ hb
      · exact fun z hz b hb => List.mem_append_right _ (hpre z hz b hb)
    · cases bs with
      | nil =>
        obtain ⟨pre, y, post, rfl, hy, hpre⟩ := @ih [] h.symm
        refine ⟨x :: pre, y, post, rfl, hy, List.forall_mem_cons.mpr ⟨?_, ?_⟩⟩
        · intro b hb
          rwa [hx, List.append_nil] at hb
        · exact fun z hz b hb => absurd (hpre z hz b hb) List.not_mem_nil
      | cons b bs =>
        obtain ⟨rfl, _⟩ := List.cons.inj h
        exact ⟨[], x, xs, rfl, hx ▸ by simp, by simp⟩

theorem names_groupConstants (cs : List Component) :
    ((groups cs).flatMap groupConstants).map (·.1) =
      (groups cs).flatten.map fun c => Expression.constantName c.name := by
  simp [groupConstants, List.map_flatten, List.flatMap_def, Function.comp_def]

def constants (cs : List Component) : List String :=
  (validatorDeclarations cs).map fun v => TypeExpr.validatorName v.component

theorem constants_perm (hnodup : (cs.map (·.name)).Nodup) :
    (constants cs).Perm (cs.map fun c => TypeExpr.validatorName c.name) := by
  have hperm := flatten_groups_perm cs
  rw [distinct_of_nodup hnodup] at hperm
  have hconstants : constants cs =
      (groups cs).flatten.map fun c => TypeExpr.validatorName c.name := by
    simp [constants, validatorDeclarations, groupValidators, List.map_flatten,
      List.flatMap_def, Function.comp_def]
  rw [hconstants]
  exact hperm.map _

/-- The text with the validators declares each component once, and a constant that an expression looks
up at once is declared before. -/
def DeclaredBeforeUse (cs : List Component) : Prop :=
  ∃ ds, Declaration.read? (Lexeme.ofText (validatorsText cs)) = some ds ∧
    (ds.map (·.1)).Perm (cs.map fun c => (TypeExpr.validatorName c.name).toList) ∧
    (ds.map (·.1)).Nodup ∧
    ∀ before d after, ds = before ++ d :: after → ∀ c ∈ cs, d.2.LooksUp c.name →
      (TypeExpr.validatorName c.name).toList ∈ before.map (·.1)

theorem declaredBeforeUse_collect {components : Document} {cs : List Component}
    (h : (collect components).result = .ok cs) : DeclaredBeforeUse cs := by
  obtain ⟨hfrom, hnodup⟩ := readFrom_readEntries h
  have hnames : ∀ c ∈ cs, c.HasNames := by
    intro c hc
    obtain ⟨⟨e, _, he⟩, _⟩ := hfrom c hc
    exact hasNames_readFrom he
  have hdistinct := distinct_of_nodup hnodup
  have hperm := flatten_groups_perm cs
  rw [hdistinct] at hperm
  have hread := read_validators fun c hc => hnames c (hperm.mem_iff.mp hc)
  -- the groups permute the components
  have hdeclared : (((groups cs).flatMap groupConstants).map (·.1)).Perm
      (cs.map fun c => Expression.constantName c.name) := by
    rw [names_groupConstants]
    exact hperm.map _
  refine ⟨_, hread, hdeclared, ?_, ?_⟩
  · rw [hdeclared.nodup_iff]
    have := hnodup.map_on (f := fun n => Expression.constantName n)
      fun a _ b _ hab => Expression.constantName_inj.mp hab
    rwa [List.map_map] at this
  · intro before d after hds c hc hl
    obtain ⟨pre, g, post, hgroups, hd, hbefore⟩ := split_flatMap hds
    obtain ⟨a, ha, rfl⟩ := List.mem_map.mp hd
    obtain ⟨href, hdeferred⟩ := TypeExpr.looksUp_expression hl
    have hc' : c ∈ distinct cs := hdistinct.symm ▸ hc
    -- what is looked up at once is not in the own group, so its group came before
    rcases mem_group_or_before hgroups ha hc' href with hg | ⟨g', hg', hcg⟩
    · exact absurd (List.mem_map_of_mem hg) hdeferred
    · exact List.mem_map.mpr ⟨_, hbefore g' hg' _ (List.mem_map_of_mem hcg), rfl⟩

def shopSchemas : Document :=
  let reference (name : String) : Value :=
    .map [(.text "$ref", .scalar (.text ("#/components/schemas/" ++ name)))]
  .ofValue (.map [(.text "schemas", .map [
    (.text "Shop", .map [(.text "anyOf", .seq [reference "Pet", reference "Shop"])]),
    (.text "Pet", .map [(.text "allOf", .seq [reference "Owner"])]),
    (.text "Owner", .map [(.text "type", .scalar (.text "array")), (.text "items", reference "Pet")])])])

theorem declaredBeforeUse_shop : ∃ shop pet owner,
    (collect shopSchemas).result =
      .ok [⟨"Shop", shop, none⟩, ⟨"Pet", pet, none⟩, ⟨"Owner", owner, none⟩] ∧
    DeclaredBeforeUse [⟨"Shop", shop, none⟩, ⟨"Pet", pet, none⟩, ⟨"Owner", owner, none⟩] := by
  have h : (collect shopSchemas).result = .ok [
      ⟨"Shop", .union .none [.identifier .none "Components.Schemas.Pet",
        .identifier .none "Components.Schemas.Shop"], none⟩,
      ⟨"Pet", .intersection .none [.identifier .none "Components.Schemas.Owner"], none⟩,
      ⟨"Owner", .array .none (.identifier .none "Components.Schemas.Pet"), none⟩] := by cbv
  exact ⟨_, _, _, h, declaredBeforeUse_collect h⟩

end Component

end ApiTypes
