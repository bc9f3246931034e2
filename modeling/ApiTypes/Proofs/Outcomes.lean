import Mathlib.Logic.Function.Basic
import ApiTypes.CommandLine.Outcome
import ApiTypes.Proofs.LegalNames

/-!
# Outcomes of runs

A run that fails leaves every file as it was and prints nothing. A run that succeeds hands over the
typings of the document it was asked about: in one file, or on the standard output, where sequences
that speak to a terminal are left out.
-/

namespace ApiTypes

/-! ## Text on a stream -/

namespace Text

def HasControl (cs : List Char) : Prop := ∃ rest, rest <:+ cs ∧ (controlLength? rest).isSome

theorem dropControls_sublist (kept : List Char) (skip : Nat) (cs : List Char) :
    (dropControls kept skip cs).Sublist (kept.reverse ++ cs) := by
  have htail : ∀ (kept : List Char) (c : Char) (cs : List Char),
      (kept.reverse ++ cs).Sublist (kept.reverse ++ c :: cs) := fun kept c cs =>
    (List.sublist_cons_self c cs).append_left _
  fun_induction dropControls kept skip cs with
  | case1 kept => simp
  | case2 kept skip c cs ih => exact ih.trans (htail kept c cs)
  | case3 kept c cs n h ih => exact ih.trans (htail kept c cs)
  | case4 kept c cs h ih => simpa using ih

theorem hasControl_cons {c : Char} {cs : List Char} : HasControl (c :: cs) ↔
    (controlLength? (c :: cs)).isSome ∨ HasControl cs := by
  simp only [HasControl, List.suffix_cons_iff, or_and_right, exists_or, exists_eq_left]

theorem dropControls_eq_iff (kept cs : List Char) :
    dropControls kept 0 cs = kept.reverse ++ cs ↔ ¬ HasControl cs := by
  induction cs generalizing kept with
  | nil => simp [dropControls, HasControl, controlLength?]
  | cons c cs ih =>
    rw [hasControl_cons, dropControls]
    cases h : controlLength? (c :: cs) with
    | none => simpa using ih (c :: kept)
    | some n =>
      refine iff_of_false (fun heq => ?_) (by simp)
      have hle := (dropControls_sublist kept (n - 1) cs).length_le
      simp only [heq, List.length_append, List.length_cons] at hle
      omega

theorem withoutControls_eq_iff (s : String) : withoutControls s = s ↔ ¬ HasControl s.toList := by
  rw [← dropControls_eq_iff [], ← String.toList_inj, withoutControls, String.toList_ofList]
  rfl

end Text

/-! ## Runs -/

namespace CommandLine

abbrev Store := Path → Option (List UInt8)

def Outcome.store (o : Outcome) (before : Store) : Store :=
  match o.written with
  | none => before
  | some (path, text) => Function.update before path.straight (some text.toUTF8.toList)

/-- The arguments ask for typings, and this is the text that they are. -/
structure Makes (look : Look) (environment : Environment) (args : List String) (r : Request)
    (text : String) : Prop where
  request : ∃ a, Invocation.ofList? args = some (.generate a) ∧ a.request look environment = .ok r
  typings : ∃ d, load look r.input r.format = .ok d ∧ (typings d r.options).result = .ok text

structure Outcome.Fails (o : Outcome) : Prop where
  exitCode : o.exitCode ≠ 0
  output : o.output = ""
  written : o.written = none

structure Outcome.Delivers (o : Outcome) (place : Option Path) (text : String) : Prop where
  exitCode : o.exitCode = 0
  failure : o.failure = none
  output : o.output = if place.isNone then Text.withoutControls text else ""
  written : o.written = place.map fun path => (path, text)

variable {help : Page → String} {look : Look} {environment : Environment} {args : List String}
  {r : Request} {text : String}

def requested? (look : Look) (environment : Environment) (args : List String) : Option Request :=
  match Invocation.ofList? args with
  | some (.generate a) => (a.request look environment).toOption
  | _ => none

theorem requested?_eq_some_iff : requested? look environment args = some r ↔
    ∃ a, Invocation.ofList? args = some (.generate a) ∧ a.request look environment = .ok r := by
  unfold requested?
  constructor
  · intro h
    split at h
    · rename_i a ha
      refine ⟨a, ha, ?_⟩
      cases hr : a.request look environment with
      | ok r' =>
        rw [hr] at h
        cases h
        rfl
      | error refusal =>
        rw [hr] at h
        cases h
    · cases h
  · rintro ⟨a, ha, hr⟩
    simp only [ha, hr]
    rfl

theorem exists_generate_eq_ok_iff : (∃ ws, (generate look r).result = .ok (text, ws)) ↔
    ∃ d, load look r.input r.format = .ok d ∧ (typings d r.options).result = .ok text := by
  constructor
  · rintro ⟨ws, h⟩
    obtain ⟨d, hd, h⟩ := Run.bind_eq_ok.mp h
    obtain ⟨api, hapi, h⟩ := Run.bind_eq_ok.mp h
    obtain ⟨made, hmade, h⟩ := Run.bind_eq_ok.mp h
    cases h
    rw [Run.result_ofExcept] at hd
    exact ⟨d, hd, Run.bind_eq_ok.mpr ⟨api, hapi, hmade⟩⟩
  · rintro ⟨d, hd, h⟩
    obtain ⟨api, hapi, hmade⟩ := Run.bind_eq_ok.mp h
    refine ⟨warnings api text, Run.bind_eq_ok.mpr ⟨d, ?_, Run.bind_eq_ok.mpr ⟨api, hapi, ?_⟩⟩⟩
    · rw [Run.result_ofExcept, hd]
    · exact Run.bind_eq_ok.mpr ⟨text, hmade, rfl⟩

theorem fails_refused (refusal : Refusal) : (Outcome.refused refusal).Fails := by
  cases refusal with
  | usage => exact ⟨Nat.succ_ne_zero 1, rfl, rfl⟩
  | noPath => exact ⟨Nat.succ_ne_zero 0, rfl, rfl⟩

theorem fails_failed (log : List String) (failure : Failure) : (failed log failure).Fails := by
  cases failure <;> exact ⟨Nat.succ_ne_zero 0, rfl, rfl⟩

theorem finished_cases (look : Look) (log : List String) (place : Option Path) (text : String) :
    (∃ path ∈ place, writeFault? look path ≠ none) ∧ (finished look log place text).Fails ∨
      (∀ path ∈ place, writeFault? look path = none) ∧
        (finished look log place text).Delivers place text := by
  cases place with
  | none => exact .inr ⟨by simp, rfl, rfl, rfl, rfl⟩
  | some path =>
    cases h : writeFault? look path with
    | some fault =>
      simp only [finished, h]
      exact .inl ⟨⟨path, rfl, by simp [h]⟩, Nat.succ_ne_zero 0, rfl, rfl⟩
    | none =>
      simp only [finished, h]
      exact .inr ⟨by simpa using h, rfl, rfl, rfl, rfl⟩

theorem run_of_help {page : Page} (h : Invocation.ofList? args = some (.help page)) :
    run help look environment args = .helped (help page) := by
  simp only [run, h]

theorem run_of_makes (help : Page → String) (h : Makes look environment args r text) :
    (∃ path ∈ r.output, writeFault? look path ≠ none) ∧ (run help look environment args).Fails ∨
      (∀ path ∈ r.output, writeFault? look path = none) ∧
        (run help look environment args).Delivers r.output text := by
  obtain ⟨a, ha, hr⟩ := h.request
  obtain ⟨ws, hgenerate⟩ := exists_generate_eq_ok_iff.mpr h.typings
  have hvalue : (generate look r).run.value = .ok (text, ws) := hgenerate
  have hrun : run help look environment args = execute look r := by simp only [run, ha, hr]
  rw [hrun]
  simp only [execute, hvalue]
  exact finished_cases look _ r.output text

theorem fails_run (hhelp : ∀ page, Invocation.ofList? args ≠ some (.help page))
    (h : ∀ r text, ¬ Makes look environment args r text) :
    (run help look environment args).Fails := by
  unfold run
  split
  · exact fails_refused _
  · exact absurd ‹_› (hhelp _)
  rename_i a ha
  split
  · exact fails_refused _
  rename_i r hr
  cases hvalue : (generate look r).run.value with
  | error failure =>
    simp only [execute, hvalue]
    exact fails_failed _ _
  | ok made =>
    have hgenerate : (generate look r).result = .ok (made.1, made.2) := hvalue
    exact absurd ⟨⟨a, ha, hr⟩, exists_generate_eq_ok_iff.mp ⟨_, hgenerate⟩⟩ (h r made.1)

theorem run_cases (help : Page → String) (look : Look) (environment : Environment)
    (args : List String) :
    (∃ page, Invocation.ofList? args = some (.help page)) ∨
      (run help look environment args).Fails ∨
      ∃ r text, Makes look environment args r text ∧
        (∀ path ∈ r.output, writeFault? look path = none) ∧
        (run help look environment args).Delivers r.output text := by
  by_cases hhelp : ∃ page, Invocation.ofList? args = some (.help page)
  · exact .inl hhelp
  by_cases hmakes : ∃ r text, Makes look environment args r text
  · obtain ⟨r, text, h⟩ := hmakes
    rcases run_of_makes help h with ⟨_, hfails⟩ | ⟨hplace, hdelivers⟩
    · exact .inr (.inl hfails)
    · exact .inr (.inr ⟨r, text, h, hplace, hdelivers⟩)
  · exact .inr (.inl (fails_run (not_exists.mp hhelp) fun r text h => hmakes ⟨r, text, h⟩))

theorem Outcome.Fails.store {o : Outcome} (h : o.Fails) (before : Store) :
    o.store before = before := by
  rw [Outcome.store, h.written]

theorem Outcome.Delivers.store {o : Outcome} {place : Option Path} (h : o.Delivers place text)
    (before : Store) : o.store before = place.elim before fun path =>
      Function.update before path.straight (some text.toUTF8.toList) := by
  rw [Outcome.store, h.written]
  cases place <;> rfl

/-- A run succeeds if and only if it shows a page of help, or the typings can be made and written where
they are asked for. If it does not, it leaves all files as they were and prints nothing but messages. If
it makes typings, the one file it writes has them and nothing else; those that it prints lose what speaks
to a terminal. -/
theorem allOrNothing_run (help : Page → String) (look : Look) (environment : Environment)
    (args : List String) :
    ((run help look environment args).exitCode = 0 ↔
      (∃ page, Invocation.ofList? args = some (.help page)) ∨
      ∃ r text, Makes look environment args r text ∧
        ∀ path ∈ r.output, writeFault? look path = none) ∧
    ((run help look environment args).exitCode ≠ 0 → (run help look environment args).output = "" ∧
      ∀ before, (run help look environment args).store before = before) ∧
    (∀ page, Invocation.ofList? args = some (.help page) →
      (run help look environment args).failure = none ∧
      (run help look environment args).output = Text.withoutControls (help page) ∧
      ∀ before, (run help look environment args).store before = before) ∧
    ∀ r text, Makes look environment args r text → (run help look environment args).exitCode = 0 →
      (run help look environment args).failure = none ∧
      (r.output = none →
        (∀ before, (run help look environment args).store before = before) ∧
        (run help look environment args).output = Text.withoutControls text ∧
        ((run help look environment args).output = text ↔ ¬ Text.HasControl text.toList)) ∧
      ∀ path, r.output = some path → (run help look environment args).output = "" ∧
        ∀ before, (run help look environment args).store before =
          Function.update before path.straight (some text.toUTF8.toList) := by
  refine ⟨⟨fun hzero => ?_, ?_⟩, fun hnot => ?_, fun page hpage => ?_, fun r text h hzero => ?_⟩
  · rcases run_cases help look environment args with hpage | hfails | ⟨r, text, h, hplace, _⟩
    · exact .inl hpage
    · exact absurd hzero hfails.exitCode
    · exact .inr ⟨r, text, h, hplace⟩
  · rintro (⟨page, hpage⟩ | ⟨r, text, h, hplace⟩)
    · rw [run_of_help hpage]
      rfl
    -- a module that is made fails only where its path cannot be written
    · rcases run_of_makes help h with ⟨⟨path, hpath, hfault⟩, _⟩ | ⟨_, hdelivers⟩
      · exact absurd (hplace path hpath) hfault
      · exact hdelivers.exitCode
  · rcases run_cases help look environment args with ⟨page, hpage⟩ | hfails | ⟨_, _, _, _, hdelivers⟩
    · rw [run_of_help hpage] at hnot
      exact absurd rfl hnot
    · exact ⟨hfails.output, hfails.store⟩
    · exact absurd hdelivers.exitCode hnot
  · rw [run_of_help hpage]
    exact ⟨rfl, rfl, fun _ => rfl⟩
  · rcases run_of_makes help h with ⟨_, hfails⟩ | ⟨_, hdelivers⟩
    · exact absurd hzero hfails.exitCode
    have houtput := hdelivers.output
    have hstore := hdelivers.store
    refine ⟨hdelivers.failure, fun hplace => ?_, fun path hplace => ?_⟩
    · rw [hplace] at houtput hstore
      refine ⟨hstore, houtput, ?_⟩
      rw [houtput]
      exact Text.withoutControls_eq_iff text
    · rw [hplace] at houtput hstore
      exact ⟨houtput, hstore⟩

def oneFile (name text : String) : Look :=
  FileTree.look ⟨[([name], text.toList.map Char.toUInt8)]⟩

def noEnvironment : Environment := ⟨none, none⟩

def noHelp : Page → String := fun _ => ""

def emptyLook : Look := oneFile "a.json" "\x7b\x7d"

def savingArguments : List String := ["generate", "-i", "a.json", "-o", "types/a.ts"]

theorem run_saves : ∃ r text, Makes emptyLook noEnvironment savingArguments r text ∧
    ∀ before, (run noHelp emptyLook noEnvironment savingArguments).store before =
      Function.update before ⟨"", ["types", "a.ts"]⟩ (some text.toUTF8.toList) := by
  have hargs : requested? emptyLook noEnvironment savingArguments = some ⟨false, ⟨"", ["a.json"]⟩,
      some ⟨"", ["types", "a.ts"]⟩, ⟨false, false⟩, none⟩ := by decide +kernel
  have hplace : Path.straight ⟨"", ["types", "a.ts"]⟩ = ⟨"", ["types", "a.ts"]⟩ := by decide +kernel
  have hzero : (run noHelp emptyLook noEnvironment savingArguments).exitCode = 0 := by
    decide +kernel
  obtain ⟨hiff, _, _, hsaved⟩ :=
    allOrNothing_run noHelp emptyLook noEnvironment savingArguments
  obtain ⟨page, hpage⟩ | ⟨r, text, hmakes, _⟩ := hiff.mp hzero
  · obtain ⟨a, ha, _⟩ := requested?_eq_some_iff.mp hargs
    cases ha.symm.trans hpage
  cases hargs.symm.trans (requested?_eq_some_iff.mpr hmakes.request)
  have hstore := ((hsaved _ text hmakes hzero).2.2 _ rfl).2
  rw [hplace] at hstore
  exact ⟨_, text, hmakes, hstore⟩

def redLook : Look := oneFile "a.json"
  "\x7b\"components\":\x7b\"schemas\":\x7b\"A\":\x7b\"description\":\"\\u001b[31mred\"\x7d\x7d\x7d\x7d"

def printingArguments : List String := ["generate", "-i", "a.json"]

theorem exists_run_uncoloured : ∃ r text,
    Makes redLook noEnvironment printingArguments r text ∧
    (run noHelp redLook noEnvironment printingArguments).exitCode = 0 ∧
    (run noHelp redLook noEnvironment printingArguments).output ≠ text := by
  have hargs : requested? redLook noEnvironment printingArguments =
      some ⟨false, ⟨"", ["a.json"]⟩, none, ⟨false, false⟩, none⟩ := by decide +kernel
  obtain ⟨⟨text, ws⟩, hgenerate⟩ := Run.exists_of_isOk (x := generate redLook
    ⟨false, ⟨"", ["a.json"]⟩, none, ⟨false, false⟩, none⟩) (by decide +kernel)
  obtain ⟨d, hd, htypings⟩ := exists_generate_eq_ok_iff.mp ⟨ws, hgenerate⟩
  have hmakes : Makes redLook noEnvironment printingArguments _ text :=
    ⟨requested?_eq_some_iff.mp hargs, d, hd, htypings⟩
  obtain ⟨api, hapi, htext⟩ := Run.bind_eq_ok.mp htypings
  have hread : ((load redLook ⟨"", ["a.json"]⟩ none).bind fun d =>
      (Api.read d false).result).map (fun api => api.components.map Component.uncommented) =
      .ok ["export type A = /** \x1b[31mred */\nany;"] := by decide +kernel
  simp only [hd, Except.bind, hapi, Except.map] at hread
  obtain ⟨c, hc, hcolour⟩ := List.mem_map.mp
    (Except.ok.inj hread ▸ List.mem_singleton_self "export type A = /** \x1b[31mred */\nany;")
  have hstands : StandsIn "\x1b[31m" c.uncommented := hcolour ▸
    (StandsIn.refl "\x1b[31m").between "export type A = /** " "red */\nany;"
  -- the colour in the description stands in the module as it is
  have hcontrol : Text.HasControl text.toList := by
    obtain ⟨front, back, hsplit⟩ := hstands.trans (Api.standsIn_of_names htext (.component hc))
    exact ⟨"\x1b[31m".toList ++ back, ⟨front, by rw [← List.append_assoc, hsplit]⟩, rfl⟩
  rcases run_of_makes noHelp hmakes with ⟨⟨_, hpath, _⟩, _⟩ | ⟨_, hdelivers⟩
  · cases hpath
  refine ⟨_, text, hmakes, hdelivers.exitCode, fun hsame => ?_⟩
  rw [hdelivers.output] at hsame
  exact (Text.withoutControls_eq_iff text).mp hsame hcontrol

end CommandLine

end ApiTypes
