import Mathlib.Tactic.Choose
import ApiTypes.Proofs.Comment
import ApiTypes.Proofs.Number

/-!
# Syntax of types

The types of declarations, and their reader. A type is a choice of alternatives, and an alternative is
a list of operands that all apply: `|` ends an alternative, `&` an operand, and `[]` belongs to the
operand before it. `Reads p cs alts` says that `cs` is read as the alternatives `alts` wherever no
character of `p` follows it.
-/

namespace ApiTypes

inductive TypeSyntax
  /-- A name and the names behind its points. -/
  | name (path : List (List Char))
  | text (cs : List Char)
  | number (cs : List Char)
  | minus (cs : List Char)
  | array (element : TypeSyntax)
  | generic (path : List (List Char)) (params : List TypeSyntax)
  | choice (alternatives : List (List TypeSyntax))
  /-- Each field has its key, whether it may be left out, and its type. -/
  | object (fields : List (List Char × Bool × TypeSyntax))
  | openObject

namespace TypeSyntax

/-! ## Reading -/

/-- The alternatives before the one that is read, and its operands before the one that is read. -/
structure Level where
  alternatives : List (List TypeSyntax)
  operands : List TypeSyntax

def Level.start : Level := ⟨[], []⟩

def Level.close (l : Level) (t : TypeSyntax) : List (List TypeSyntax) :=
  l.alternatives ++ [l.operands ++ [t]]

abbrev Field := List Char × Bool × TypeSyntax

inductive Frame
  | group (outer : Level)
  | params (outer : Level) (path : List (List Char)) (done : List TypeSyntax)
  | field (outer : Level) (done : List Field) (key : List Char) (optional : Bool)

inductive Mode
  | operand
  | minus
  | after (t : TypeSyntax)
  | bracket (t : TypeSyntax)
  | key (done : List Field)
  | keyed (done : List Field) (key : List Char) (optional : Bool)
  | index (ls : List Lexeme)

structure Reader where
  mode : Mode
  level : Level
  frames : List Frame

def indexSignature : List Lexeme :=
  [.word "key".toList, .mark ':', .word "string".toList, .mark ']', .mark ':', .word "any".toList,
    .mark '\x7d']

def ofWord? (cs : List Char) : Option TypeSyntax :=
  if Lexeme.isName cs then some (.name [cs])
  else if (Number.read? cs).isSome then some (.number cs)
  else none

def opened (l : Level) (frames : List Frame) (c : Char) : Option Reader :=
  if c == '(' then some ⟨.operand, .start, .group l :: frames⟩
  else if c == '\x7b' then some ⟨.key [], l, frames⟩
  else if c == '-' then some ⟨.minus, l, frames⟩
  else match frames, c with
    | .params outer path [] :: frames, '>' => some ⟨.after (.generic path []), outer, frames⟩
    | _, _ => none

def closed (frames : List Frame) (alts : List (List TypeSyntax)) (c : Char) : Option Reader :=
  match frames with
  | .group outer :: frames => if c == ')' then some ⟨.after (.choice alts), outer, frames⟩ else none
  | .params outer path done :: frames =>
    if c == ',' then some ⟨.operand, .start, .params outer path (done ++ [.choice alts]) :: frames⟩
    else if c == '>' then some ⟨.after (.generic path (done ++ [.choice alts])), outer, frames⟩
    else none
  | .field outer done key optional :: frames =>
    if c == ';' then some ⟨.key (done ++ [(key, optional, .choice alts)]), outer, frames⟩ else none
  | [] => none

def follow (l : Level) (frames : List Frame) (t : TypeSyntax) (c : Char) : Option Reader :=
  if c == '[' then some ⟨.bracket t, l, frames⟩
  else if c == '&' then some ⟨.operand, ⟨l.alternatives, l.operands ++ [t]⟩, frames⟩
  else if c == '|' then some ⟨.operand, ⟨l.close t, []⟩, frames⟩
  else match t with
    | .name path =>
      if c == '<' then some ⟨.operand, .start, .params l path [] :: frames⟩
      else closed frames (l.close t) c
    | _ => closed frames (l.close t) c

def step (r : Reader) (l : Lexeme) : Option Reader :=
  match r.mode, l with
  | .operand, .word cs => (ofWord? cs).map fun t => { r with mode := .after t }
  | .operand, .text cs => (Text.unescape? cs).map fun s => { r with mode := .after (.text s) }
  | .operand, .mark c => opened r.level r.frames c
  | .minus, .word cs =>
    if (Number.read? cs).isSome then some { r with mode := .after (.minus cs) } else none
  | .after (.name path), .word ('.' :: cs) =>
    some { r with mode := .after (.name (path ++ [cs])) }
  | .after t, .mark c => follow r.level r.frames t c
  | .bracket t, .mark ']' => some { r with mode := .after (.array t) }
  | .key [], .mark '[' => some { r with mode := .index indexSignature }
  | .index [l'], l => if l = l' then some { r with mode := .after .openObject } else none
  | .index (l' :: ls), l => if l = l' then some { r with mode := .index ls } else none
  | .key done, .mark '\x7d' => some { r with mode := .after (.object done) }
  | .key done, .word cs =>
    if Lexeme.isName cs then some { r with mode := .keyed done cs false } else none
  | .key done, .text cs => (Text.unescape? cs).map fun s => { r with mode := .keyed done s false }
  | .keyed done key false, .mark '?' => some { r with mode := .keyed done key true }
  | .keyed done key optional, .mark ':' =>
    some ⟨.operand, .start, .field r.level done key optional :: r.frames⟩
  | _, _ => none

def run (r : Reader) (ls : List Lexeme) : Option Reader := ls.foldlM step r

def read? (ls : List Lexeme) : Option TypeSyntax :=
  match run ⟨.operand, .start, []⟩ ls with
  | some ⟨.after t, l, []⟩ => some (.choice (l.close t))
  | _ => none

theorem run_cons (r : Reader) (l : Lexeme) (ls : List Lexeme) :
    run r (l :: ls) = (step r l).bind fun r => run r ls := rfl

theorem run_append (r : Reader) (ls ks : List Lexeme) :
    run r (ls ++ ks) = (run r ls).bind fun r => run r ks := by
  rw [run, List.foldlM_append]
  rfl

/-! ## Rules -/

/-- A level with more alternatives, the first of which goes on with the one that is read. -/
def Level.join (l : Level) : List (List TypeSyntax) → List (List TypeSyntax)
  | [] => l.alternatives
  | operands :: alts => l.alternatives ++ (l.operands ++ operands) :: alts

/-- Reading `ls` at a level ends behind an operand, with the alternatives `alts` added. -/
def Adds (ls : List Lexeme) (alts : List (List TypeSyntax)) : Prop :=
  ∀ l frames, ∃ l' t, run ⟨.operand, l, frames⟩ ls = some ⟨.after t, l', frames⟩ ∧
    l'.close t = l.join alts

def Reads (p : Char → Bool) (cs : List Char) (alts : List (List TypeSyntax)) : Prop :=
  ∃ ls, Lexeme.Spells p cs ls ∧ Adds ls alts

theorem Level.close_inj {l l' : Level} {t t' : TypeSyntax} (h : l.close t = l'.close t') :
    l = l' ∧ t = t' := by
  obtain ⟨h₁, h₂⟩ := List.append_inj' h rfl
  obtain ⟨h₃, h₄⟩ := List.append_inj' (List.singleton_inj.mp h₂) rfl
  cases l
  cases l'
  exact ⟨by simp_all, List.singleton_inj.mp h₄⟩

theorem Level.close_eq_join {l l' : Level} {t : TypeSyntax} {operands : List TypeSyntax}
    (h : l'.close t = l.join [operands]) :
    l'.alternatives = l.alternatives ∧ l'.operands ++ [t] = l.operands ++ operands := by
  obtain ⟨h₁, h₂⟩ := List.append_inj' h rfl
  exact ⟨h₁, List.singleton_inj.mp h₂⟩

theorem Level.join_append {l : Level} {alts : List (List TypeSyntax)} (h : alts ≠ [])
    (more : List (List TypeSyntax)) : Level.join ⟨l.join alts, []⟩ more = l.join (alts ++ more) := by
  cases alts with
  | nil => exact absurd rfl h
  | cons operands alts => cases more <;> simp [Level.join]

theorem Level.join_start {alts : List (List TypeSyntax)} (h : alts ≠ []) :
    Level.start.join alts = alts := by
  cases alts with
  | nil => exact absurd rfl h
  | cons operands alts => rfl

theorem adds_single {ls : List Lexeme} {t : TypeSyntax} :
    Adds ls [[t]] ↔
      ∀ l frames, run ⟨.operand, l, frames⟩ ls = some ⟨.after t, l, frames⟩ := by
  constructor
  · intro h l frames
    obtain ⟨l', t', hrun, hclose⟩ := h l frames
    obtain ⟨rfl, rfl⟩ := Level.close_inj hclose
    exact hrun
  · exact fun h l frames => ⟨l, t, h l frames, rfl⟩

theorem follow_eq_closed {c : Char} (hbracket : (c == '[') = false) (hand : (c == '&') = false)
    (hor : (c == '|') = false) (hless : (c == '<') = false) (l : Level) (frames : List Frame)
    (t : TypeSyntax) : follow l frames t c = closed frames (l.close t) c := by
  cases t <;> simp [follow, hbracket, hand, hor, hless]

theorem step_after (l : Level) (frames : List Frame) (t : TypeSyntax) (c : Char) :
    step ⟨.after t, l, frames⟩ (.mark c) = follow l frames t c := by
  cases t <;> rfl

section
variable {p : Char → Bool} {cs ds : List Char} {t : TypeSyntax} {alts : List (List TypeSyntax)}

theorem Reads.mono {q : Char → Bool} (h : Reads p cs alts) (hpq : ∀ c, p c = true → q c = true) :
    Reads q cs alts := by
  obtain ⟨ls, hs, ha⟩ := h
  exact ⟨ls, hs.mono hpq, ha⟩

theorem Reads.word (h : Reads Lexeme.isNameChar cs alts) : Reads Lexeme.isWordChar cs alts :=
  h.mono fun c hc => by simp [Lexeme.isWordChar, hc]

theorem Reads.weaken (h : Reads Lexeme.never cs alts) : Reads p cs alts :=
  h.mono fun _ hc => by cases hc

theorem Reads.ne_nil (h : Reads p cs alts) : cs ≠ [] := by
  rintro rfl
  obtain ⟨ls, hs, ha⟩ := h
  have hls : ls = [] := hs.scan_eq.symm
  obtain ⟨l, t, hrun, _⟩ := ha .start []
  rw [hls] at hrun
  cases hrun

theorem Reads.operands_ne_nil {operands : List TypeSyntax} (h : Reads p cs [operands]) :
    operands ≠ [] := by
  rintro rfl
  obtain ⟨ls, _, ha⟩ := h
  obtain ⟨l, t, _, heq⟩ := ha .start []
  have := (Level.close_eq_join heq).2
  simp [Level.start] at this

theorem Reads.read?_eq (h : Reads p cs alts) (hne : alts ≠ []) :
    read? (Lexeme.scan .code cs) = some (.choice alts) := by
  obtain ⟨ls, hs, ha⟩ := h
  obtain ⟨l, t, hrun, hclose⟩ := ha .start []
  rw [hs.scan_eq, read?, hrun]
  simp [hclose, Level.join_start hne]

/-! ## Operands -/

theorem ofWord?_number (h : Number.Form cs) : ofWord? cs = some (.number cs) := by
  have hname : Lexeme.isName cs = false := by
    have hhead := h.head
    cases cs with
    | nil => rfl
    | cons c cs =>
      have hd : c.isDigit = true := hhead
      simp [Lexeme.isName, hd]
  rw [ofWord?, hname, if_neg (by decide), if_pos h.isSome_read?]

theorem Reads.name (h : Lexeme.isName cs = true) : Reads Lexeme.isNameChar cs [[.name [cs]]] := by
  refine ⟨_, .name h, adds_single.mpr fun l frames => ?_⟩
  simp [run, step, ofWord?, h]

theorem Reads.member {path : List (List Char)} (h : Reads Lexeme.isNameChar cs [[.name path]])
    (hds : ∀ d ∈ ds, Lexeme.isNameChar d = true) :
    Reads Lexeme.isNameChar (cs ++ '.' :: ds) [[.name (path ++ [ds])]] := by
  obtain ⟨ls, hs, ha⟩ := h
  refine ⟨_, hs.append (.member hds) (by intro c hc; cases hc; decide) (by simp),
    adds_single.mpr fun l frames => ?_⟩
  rw [run_append, adds_single.mp ha]
  rfl

theorem Reads.text (s : String) :
    Reads Lexeme.never (Text.quoted s).toList [[.text s.toList]] := by
  refine ⟨_, .quoted s, adds_single.mpr fun l frames => ?_⟩
  simp [run, step, Text.unescape?_escape]

theorem Reads.number (h : Number.Form cs) : Reads Lexeme.isWordChar cs [[.number cs]] := by
  refine ⟨_, h.spells, adds_single.mpr fun l frames => ?_⟩
  simp [run, step, ofWord?_number h]

theorem Reads.minus (h : Number.Form cs) :
    Reads Lexeme.isWordChar ('-' :: cs) [[.minus cs]] := by
  have hminus : Lexeme.Spells Lexeme.never ['-'] [.mark '-'] := fun _ _ => rfl
  refine ⟨_, hminus.append_never h.spells, adds_single.mpr fun l frames => ?_⟩
  show run ⟨.minus, l, frames⟩ [.word cs] = _
  simp [run, step, h.isSome_read?]

theorem Reads.openObject :
    Reads Lexeme.never "\x7b [key: string]: any \x7d".toList [[.openObject]] :=
  ⟨.mark '\x7b' :: .mark '[' :: indexSignature, fun _ _ => rfl, adds_single.mpr fun _ _ => rfl⟩

theorem Reads.array (h : Reads p cs [[t]]) (hp : p '[' = false) :
    Reads Lexeme.never (cs ++ ['[', ']']) [[.array t]] := by
  obtain ⟨ls, hs, ha⟩ := h
  have hbrackets : Lexeme.Spells Lexeme.never ['[', ']'] [.mark '[', .mark ']'] := fun _ _ => rfl
  refine ⟨_, hs.append hbrackets (by intro c hc; cases hc; exact hp) (by simp),
    adds_single.mpr fun l frames => ?_⟩
  rw [run_append, adds_single.mp ha, Option.bind_some, run_cons, step_after]
  rfl

theorem Reads.group (h : Reads Lexeme.isWordChar cs alts) (hne : alts ≠ []) :
    Reads Lexeme.never ('(' :: (cs ++ [')'])) [[.choice alts]] := by
  obtain ⟨ls, hs, ha⟩ := h
  have hopen : Lexeme.Spells Lexeme.never ['('] [.mark '('] := fun _ _ => rfl
  have hclose : Lexeme.Spells Lexeme.never [')'] [.mark ')'] := fun _ _ => rfl
  refine ⟨_, hopen.append_never (hs.append hclose (by intro c hc; cases hc; decide) (by simp)),
    adds_single.mpr fun l frames => ?_⟩
  obtain ⟨l', t, hrun, heq⟩ := ha .start (.group l :: frames)
  have hstart : run ⟨.operand, l, frames⟩ ([.mark '('] ++ (ls ++ [.mark ')'])) =
      run ⟨.operand, .start, .group l :: frames⟩ (ls ++ [.mark ')']) := rfl
  rw [hstart, run_append, hrun, Option.bind_some, run_cons, step_after,
    follow_eq_closed rfl rfl rfl rfl, heq, Level.join_start hne]
  rfl

theorem run_params {α : Type} {items : List α} {ls : α → List Lexeme}
    {alts : α → List (List TypeSyntax)} (hne : items ≠ [])
    (h : ∀ a ∈ items, Adds (ls a) (alts a) ∧ alts a ≠ []) (path : List (List Char))
    (done : List TypeSyntax) (l : Level) (frames : List Frame) :
    run ⟨.operand, .start, .params l path done :: frames⟩
      ([.mark ','].intercalate (items.map ls) ++ [.mark '>']) =
    some ⟨.after (.generic path (done ++ items.map fun a => .choice (alts a))), l, frames⟩ := by
  induction items generalizing done with
  | nil => exact absurd rfl hne
  | cons a items ih =>
    obtain ⟨ha, hane⟩ := h a List.mem_cons_self
    obtain ⟨l', t, hrun, heq⟩ := ha .start (.params l path done :: frames)
    cases items with
    | nil =>
      rw [List.map_singleton, List.intercalate_singleton, run_append, hrun, Option.bind_some,
        run_cons, step_after, follow_eq_closed rfl rfl rfl rfl, heq, Level.join_start hane]
      rfl
    | cons b items =>
      have ih := ih (by simp) (fun c hc => h c (List.mem_cons_of_mem _ hc)) (done ++ [.choice (alts a)])
      rw [List.map_cons, List.map_cons, List.intercalate_cons_cons, List.append_assoc,
        List.append_assoc, run_append, hrun, Option.bind_some, List.singleton_append, run_cons,
        step_after, follow_eq_closed rfl rfl rfl rfl, heq, Level.join_start hane]
      simpa [closed] using ih

theorem Reads.generic {α : Type} {items : List α} {ts : α → List Char}
    {alts : α → List (List TypeSyntax)} {path : List (List Char)}
    (hpath : Reads p cs [[.name path]]) (hp : p '<' = false)
    (h : ∀ a ∈ items, Reads Lexeme.isWordChar (ts a) (alts a) ∧ alts a ≠ []) :
    Reads Lexeme.never (cs ++ '<' :: (", ".toList.intercalate (items.map ts) ++ ['>']))
      [[.generic path (items.map fun a => .choice (alts a))]] := by
  obtain ⟨lp, hsp, hap⟩ := hpath
  choose! ls hls using fun a ha => (h a ha).1
  have hsep : Lexeme.Spells Lexeme.never ", ".toList [.mark ','] := fun _ _ => rfl
  have hopen : Lexeme.Spells Lexeme.never ['<'] [.mark '<'] := fun _ _ => rfl
  have hclose : Lexeme.Spells Lexeme.never ['>'] [.mark '>'] := fun _ _ => rfl
  have hparams := Lexeme.Spells.intercalate hsep (by intro c hc; cases hc; decide) (by simp)
    fun a ha => (hls a ha).1
  have hall := hopen.append_never
    (hparams.append hclose (by intro c hc; cases hc; decide) (by simp))
  refine ⟨_, hsp.append hall (by intro c hc; cases hc; exact hp) (by simp),
    adds_single.mpr fun l frames => ?_⟩
  rw [run_append, adds_single.mp hap, Option.bind_some, List.singleton_append, run_cons, step_after]
  by_cases hne : items = []
  · subst hne
    rfl
  · exact run_params hne (fun a ha => ⟨(hls a ha).2, (h a ha).2⟩) path [] l frames

/-! ## Combinations -/

theorem adds_union {α : Type} {items : List α} {ls : α → List Lexeme}
    {alts : α → List (List TypeSyntax)} (hne : items ≠ [])
    (h : ∀ a ∈ items, Adds (ls a) (alts a) ∧ alts a ≠ []) :
    Adds ([.mark '|'].intercalate (items.map ls)) (items.flatMap alts) := by
  induction items with
  | nil => exact absurd rfl hne
  | cons a items ih =>
    obtain ⟨ha, hane⟩ := h a List.mem_cons_self
    cases items with
    | nil => simpa using ha
    | cons b items =>
      have ih := ih (by simp) fun c hc => h c (List.mem_cons_of_mem _ hc)
      intro l frames
      obtain ⟨l', t, hrun, heq⟩ := ha l frames
      obtain ⟨l'', u, hrun', heq'⟩ := ih ⟨l'.close t, []⟩ frames
      refine ⟨l'', u, ?_, ?_⟩
      · rw [List.map_cons, List.map_cons, List.intercalate_cons_cons, List.append_assoc, run_append,
          hrun, Option.bind_some, List.singleton_append, run_cons, step_after]
        exact hrun'
      · rw [heq', heq, Level.join_append hane]
        exact congrArg l.join List.flatMap_cons.symm

theorem adds_intersection {α : Type} {items : List α} {ls : α → List Lexeme}
    {operands : α → List TypeSyntax} (hne : items ≠ [])
    (h : ∀ a ∈ items, Adds (ls a) [operands a]) :
    Adds ([.mark '&'].intercalate (items.map ls)) [items.flatMap operands] := by
  induction items with
  | nil => exact absurd rfl hne
  | cons a items ih =>
    have ha := h a List.mem_cons_self
    cases items with
    | nil => simpa using ha
    | cons b items =>
      have ih := ih (by simp) fun c hc => h c (List.mem_cons_of_mem _ hc)
      intro l frames
      obtain ⟨l', t, hrun, heq⟩ := ha l frames
      obtain ⟨hl, hops⟩ := Level.close_eq_join heq
      obtain ⟨l'', u, hrun', heq'⟩ := ih ⟨l'.alternatives, l'.operands ++ [t]⟩ frames
      refine ⟨l'', u, ?_, ?_⟩
      · rw [List.map_cons, List.map_cons, List.intercalate_cons_cons, List.append_assoc, run_append,
          hrun, Option.bind_some, List.singleton_append, run_cons, step_after]
        exact hrun'
      · rw [heq', hl, hops]
        simp [Level.join]

theorem Reads.union {α : Type} {items : List α} {cs : α → List Char}
    {alts : α → List (List TypeSyntax)} (hne : items ≠ [])
    (h : ∀ a ∈ items, Reads Lexeme.isWordChar (cs a) (alts a) ∧ alts a ≠ []) :
    Reads Lexeme.isWordChar (" | ".toList.intercalate (items.map cs)) (items.flatMap alts) := by
  choose! ls hls using fun a ha => (h a ha).1
  have hsep : Lexeme.Spells Lexeme.never " | ".toList [.mark '|'] := fun _ _ => rfl
  exact ⟨_, .intercalate hsep (by intro c hc; cases hc; decide) (by simp)
    fun a ha => (hls a ha).1, adds_union hne fun a ha => ⟨(hls a ha).2, (h a ha).2⟩⟩

theorem Reads.intersection {α : Type} {items : List α} {cs : α → List Char}
    {operands : α → List TypeSyntax} (hne : items ≠ [])
    (h : ∀ a ∈ items, Reads Lexeme.isWordChar (cs a) [operands a]) :
    Reads Lexeme.isWordChar (" & ".toList.intercalate (items.map cs))
      [items.flatMap operands] := by
  choose! ls hls using h
  have hsep : Lexeme.Spells Lexeme.never " & ".toList [.mark '&'] := fun _ _ => rfl
  exact ⟨_, .intercalate hsep (by intro c hc; cases hc; decide) (by simp)
    fun a ha => (hls a ha).1, adds_intersection hne fun a ha => (hls a ha).2⟩

/-! ## Objects -/

def ReadsField (cs : List Char) (f : Field) : Prop :=
  ∃ ls, Lexeme.Spells Lexeme.never cs ls ∧
    ∀ done l frames, run ⟨.key done, l, frames⟩ ls = some ⟨.key (done ++ [f]), l, frames⟩

def keyLexeme (name : String) : Lexeme :=
  if Name.isBare name then .word name.toList else .text (Text.escape name.toList)

theorem spells_key (name : String) :
    Lexeme.Spells Lexeme.isNameChar (Name.propertyKey name).toList [keyLexeme name] := by
  unfold Name.propertyKey keyLexeme
  split
  · exact .name (Lexeme.isName_of_isBare ‹_›)
  · exact (Lexeme.Spells.quoted name).weaken

theorem keyLexeme_injective : Function.Injective keyLexeme := by
  intro s t h
  unfold keyLexeme at h
  split at h <;> split at h
  · exact String.toList_inj.mp (Lexeme.word.inj h)
  · cases h
  · cases h
  · have hread := congrArg Text.unescape? (Lexeme.text.inj h)
    rw [Text.unescape?_escape, Text.unescape?_escape] at hread
    exact String.toList_inj.mp (Option.some.inj hread)

theorem step_key (name : String) (done : List Field) (l : Level) (frames : List Frame) :
    step ⟨.key done, l, frames⟩ (keyLexeme name) =
      some ⟨.keyed done name.toList false, l, frames⟩ := by
  unfold keyLexeme
  split
  · rename_i h
    simp [step, Lexeme.isName_of_isBare h]
  · simp [step, Text.unescape?_escape]

def optionMark (optional : Bool) : List Char := if optional then ['?'] else []

theorem ReadsField.property (name : String) (optional : Bool)
    (h : Reads Lexeme.isWordChar cs alts) (hne : alts ≠ []) :
    ReadsField ((Name.propertyKey name).toList ++ (optionMark optional ++ ':' :: ' ' :: (cs ++ [';'])))
      (name.toList, optional, .choice alts) := by
  obtain ⟨ls, hs, ha⟩ := h
  have hcolon : Lexeme.Spells Lexeme.never (optionMark optional ++ [':', ' '])
      (if optional then [.mark '?', .mark ':'] else [.mark ':']) := by
    cases optional <;> exact fun _ _ => rfl
  have hend : Lexeme.Spells Lexeme.never [';'] [.mark ';'] := fun _ _ => rfl
  have htype := hcolon.append_never (hs.append hend (by intro c hc; cases hc; decide) (by simp))
  have hall := (spells_key name).append htype
    (by intro c hc; cases optional <;> cases hc <;> decide) (by cases optional <;> simp)
  refine ⟨_, by simpa using hall, fun done l frames => ?_⟩
  obtain ⟨l', t, hrun, heq⟩ := ha .start (.field l done name.toList optional :: frames)
  have hmarks : run ⟨.keyed done name.toList false, l, frames⟩
      ((if optional then [.mark '?', .mark ':'] else [.mark ':']) ++ (ls ++ [.mark ';'])) =
      run ⟨.operand, .start, .field l done name.toList optional :: frames⟩ (ls ++ [.mark ';']) := by
    cases optional <;> rfl
  rw [run_cons, step_key, Option.bind_some, hmarks, run_append, hrun, Option.bind_some,
    run_cons, step_after, follow_eq_closed rfl rfl rfl rfl, heq, Level.join_start hne]
  rfl

theorem ReadsField.behind {f : Field} (h : ReadsField cs f)
    (hds : Lexeme.Spells Lexeme.never ds []) : ReadsField (ds ++ cs) f := by
  obtain ⟨ls, hs, hrun⟩ := h
  exact ⟨ls, hds.append_never hs, hrun⟩

theorem run_fields {α : Type} {items : List α} {ls : α → List Lexeme} {field : α → Field}
    (h : ∀ a ∈ items, ∀ done l frames,
      run ⟨.key done, l, frames⟩ (ls a) = some ⟨.key (done ++ [field a]), l, frames⟩)
    (done : List Field) (l : Level) (frames : List Frame) :
    run ⟨.key done, l, frames⟩ (items.flatMap ls) =
      some ⟨.key (done ++ items.map field), l, frames⟩ := by
  induction items generalizing done with
  | nil => simp [run]
  | cons a items ih =>
    rw [List.flatMap_cons, run_append, h a List.mem_cons_self, Option.bind_some,
      ih fun b hb => h b (List.mem_cons_of_mem _ hb)]
    simp

theorem step_close (done : List Field) (l : Level) (frames : List Frame) :
    step ⟨.key done, l, frames⟩ (.mark '\x7d') = some ⟨.after (.object done), l, frames⟩ := by
  cases done <;> rfl

theorem Reads.object {α : Type} {items : List α} {text : α → List Char} {field : α → Field}
    (h : ∀ a ∈ items, ReadsField (text a) (field a)) :
    Reads Lexeme.never
      ('\x7b' :: '\n' :: (['\n'].intercalate (items.map text) ++ ['\n', '\x7d']))
      [[.object (items.map field)]] := by
  choose! ls hls using h
  have hsep : Lexeme.Spells Lexeme.never ['\n'] [] := fun _ _ => rfl
  have hopen : Lexeme.Spells Lexeme.never ['\x7b', '\n'] [.mark '\x7b'] := fun _ _ => rfl
  have hclose : Lexeme.Spells Lexeme.never ['\n', '\x7d'] [.mark '\x7d'] := fun _ _ => rfl
  have hfields := Lexeme.Spells.intercalate hsep (fun _ _ => rfl) (by simp) fun a ha => (hls a ha).1
  rw [Lexeme.nil_intercalate, ← List.flatMap_def] at hfields
  refine ⟨_, hopen.append_never (hfields.append_never hclose), adds_single.mpr fun l frames => ?_⟩
  have hstart : run ⟨.operand, l, frames⟩
      ([.mark '\x7b'] ++ (items.flatMap ls ++ [.mark '\x7d'])) =
      run ⟨.key [], l, frames⟩ (items.flatMap ls ++ [.mark '\x7d']) := rfl
  rw [hstart, run_append, run_fields fun a ha => (hls a ha).2, Option.bind_some, run_cons,
    step_close]
  rfl

end

end TypeSyntax

end ApiTypes
