import ApiTypes.Proofs.JsonDigits
import ApiTypes.Proofs.Outcomes
import ApiTypes.Proofs.Utf8
import ApiTypes.Proofs.YamlScalars

/-!
# Loading files

A file is loaded as a mapping or refused with a fault that is told to the user, but for three kinds of
files: bytes that are no text, an integer of too many digits in JSON, and a scalar in YAML that does not
fit its tag. These end the program.
-/

namespace ApiTypes

/-! ## Texts in a format -/

def linesOf (s : String) : List Char := Text.unifyLineFeeds s.toList

def formatOf (format : Option Format) (path : Path) (cs : List Char) : Format :=
  format.getD ((Format.ofEnding? path.ending).getD (Format.ofText cs))

/-- The scalars of a text have values. -/
def Format.Fits : Format → List Char → Prop
  | json, cs => ¬ Json.HasLongInteger cs
  | yaml, cs => ∀ fault, Yaml.read cs ≠ .error (.scalar fault)

/-- A document is loaded, or the failure is one that is told to the user. -/
def IsReported (x : Except Failure Document) : Prop :=
  (∃ d, x = .ok d ∧ d.entries?.isSome) ∨ ∃ fault, x = .error (.document fault)

theorem isReported_error_iff {failure : Failure} :
    IsReported (.error failure) ↔ ∃ fault, failure = .document fault := by
  constructor
  · rintro (⟨_, h, _⟩ | ⟨fault, h⟩)
    · cases h
    · exact ⟨fault, Except.error.inj h⟩
  · rintro ⟨fault, rfl⟩
    exact .inr ⟨fault, rfl⟩

theorem exists_string_iff {bytes : List UInt8} {cs : List Char} :
    Text.decodeUtf8 bytes = .ok cs ↔ (String.ofList cs).toUTF8 = bytes.toByteArray := by
  rw [Text.decodeUtf8_eq_ok_iff, String.toUTF8_eq_toByteArray, String.toByteArray_ofList,
    List.utf8Encode, List.toByteArray_inj]

variable {look : Look} {path : Path} {bytes : List UInt8}

def readAs (path : Path) : Format → List Char → Except Failure Document
  | .json, cs => readJson path cs
  | .yaml, cs => readYaml path cs

def requireMapping (path : Path) (d : Document) : Except Failure Document :=
  if d.entries?.isNone then .error (.document (.noMapping path.text)) else .ok d

def loadText (path : Path) (format : Format) (cs : List Char) : Except Failure Document :=
  (readAs path format cs).bind (requireMapping path)

theorem readText_of_file (h : look path.text = .file bytes) {s : String}
    (hs : s.toUTF8 = bytes.toByteArray) : readText look path = .ok (linesOf s) := by
  rw [← String.ofList_toList (s := s), ← exists_string_iff] at hs
  unfold readText readBytes
  simp only [h, bind, Except.bind, hs]
  rfl

theorem readText_of_undecodable (h : look path.text = .file bytes)
    (hs : ∀ s : String, s.toUTF8 ≠ bytes.toByteArray) :
    ∃ fault, readText look path = .error (.undecodable fault) := by
  unfold readText readBytes
  simp only [h]
  cases hdecode : Text.decodeUtf8 bytes with
  | ok cs => exact absurd (exists_string_iff.mp hdecode) (hs _)
  | error fault => exact ⟨fault, by simp only [bind, Except.bind, hdecode]; rfl⟩

def chooseFormat (look : Look) (path : Path) : Option Format → Except Failure Format
  | some f => .ok f
  | none => Format.detect look path

theorem load_eq (h : look path.text = .file bytes) (format : Option Format) :
    load look path format = (chooseFormat look path format).bind fun f =>
      (readText look path).bind fun cs => loadText path f cs := by
  have hformat : load look path format = (chooseFormat look path format).bind fun f =>
      load look path (some f) := by
    unfold load chooseFormat
    rw [h]
    cases format with
    | some f => rfl
    | none => cases Format.detect look path <;> rfl
  have hload : ∀ f, load look path (some f) =
      (readText look path).bind fun cs => loadText path f cs := by
    intro f
    unfold load
    rw [h]
    cases f <;> rfl
  rw [hformat]
  congr 1
  funext f
  exact hload f

theorem load_of_text (h : look path.text = .file bytes) {s : String}
    (hs : s.toUTF8 = bytes.toByteArray) (format : Option Format) :
    load look path format = loadText path (formatOf format path (linesOf s)) (linesOf s) := by
  have hread := readText_of_file h hs
  have hformat : chooseFormat look path format = .ok (formatOf format path (linesOf s)) := by
    cases format with
    | some f => rfl
    | none =>
      unfold chooseFormat Format.detect formatOf
      cases Format.ofEnding? path.ending with
      | some f => rfl
      | none =>
        simp only [hread]
        rfl
  rw [load_eq h, hformat, hread]
  rfl

theorem load_of_undecodable (h : look path.text = .file bytes)
    (hs : ∀ s : String, s.toUTF8 ≠ bytes.toByteArray) (format : Option Format) :
    ∃ fault, load look path format = .error (.undecodable fault) := by
  obtain ⟨fault, hread⟩ := readText_of_undecodable h hs
  refine ⟨fault, ?_⟩
  have hformat : (∃ f, chooseFormat look path format = .ok f) ∨
      chooseFormat look path format = .error (.undecodable fault) := by
    cases format with
    | some f => exact .inl ⟨f, rfl⟩
    | none =>
      unfold chooseFormat Format.detect
      cases Format.ofEnding? path.ending with
      | some f => exact .inl ⟨f, rfl⟩
      | none =>
        simp only [hread]
        exact .inr rfl
  rw [load_eq h, hread]
  rcases hformat with ⟨f, hf⟩ | hf <;> rw [hf] <;> rfl

theorem loadText_eq_ok {format : Format} {cs : List Char} {d : Document}
    (h : loadText path format cs = .ok d) : d.entries?.isSome := by
  unfold loadText at h
  cases hread : readAs path format cs with
  | error failure =>
    rw [hread] at h
    cases h
  | ok e =>
    rw [hread] at h
    simp only [Except.bind, requireMapping] at h
    split at h
    · cases h
    · rename_i hnone
      cases h
      exact Option.isSome_iff_ne_none.mpr (by simpa using hnone)

/-! ## Failures -/

theorem readAs_of_fits {format : Format} {cs : List Char} (h : format.Fits cs) {failure : Failure}
    (hread : readAs path format cs = .error failure) : ∃ fault, failure = .document fault := by
  cases format with
  | json =>
    change readJson path cs = _ at hread
    unfold readJson at hread
    split at hread
    · cases hread
    · exact absurd (Json.read_eq_tooLong_iff.mp ‹_›) h
    · cases hread
      exact ⟨_, rfl⟩
  | yaml =>
    change readYaml path cs = _ at hread
    unfold readYaml at hread
    split at hread
    · cases hread
    · cases hread
      exact ⟨_, rfl⟩
    · exact absurd ‹_› (h _)

theorem readAs_of_not_fits {format : Format} {cs : List Char} (h : ¬ format.Fits cs) :
    (format = .json ∧ Json.HasLongInteger cs ∧ readAs path format cs = .error .tooLong) ∨
      ∃ fault, format = .yaml ∧ Yaml.HasMisfit cs fault ∧
        readAs path format cs = .error (.scalar fault) := by
  cases format with
  | json =>
    have hlong : Json.HasLongInteger cs := not_not.mp h
    refine .inl ⟨rfl, hlong, ?_⟩
    show readJson path cs = _
    rw [readJson, Json.read_eq_tooLong_iff.mpr hlong]
  | yaml =>
    obtain ⟨fault, hfault⟩ := not_forall_not.mp h
    refine .inr ⟨fault, rfl, Yaml.hasMisfit_of_read hfault, ?_⟩
    show readYaml path cs = _
    rw [readYaml, hfault]

theorem isReported_loadText_iff {format : Format} {cs : List Char} :
    IsReported (loadText path format cs) ↔ format.Fits cs := by
  constructor
  · intro h
    by_contra hfits
    rcases readAs_of_not_fits hfits with ⟨_, _, hread⟩ | ⟨_, _, _, hread⟩
    all_goals
      rw [loadText, hread] at h
      obtain ⟨_, hfault⟩ := isReported_error_iff.mp h
      cases hfault
  · intro hfits
    cases hload : loadText path format cs with
    | ok d => exact .inl ⟨d, rfl, loadText_eq_ok hload⟩
    | error failure =>
      unfold loadText at hload
      cases hread : readAs path format cs with
      | error failure' =>
        rw [hread] at hload
        cases hload
        exact isReported_error_iff.mpr (readAs_of_fits hfits hread)
      | ok d =>
        rw [hread] at hload
        simp only [Except.bind, requireMapping] at hload
        split at hload
        · cases hload
          exact isReported_error_iff.mpr ⟨_, rfl⟩
        · cases hload

/-- A failure that is not reported, with what in the bytes of a file it comes from. -/
inductive Escapes (path : Path) (format : Option Format) (bytes : List UInt8) : Failure → Prop
  | bytes (h : ∀ s : String, s.toUTF8 ≠ bytes.toByteArray) (fault : Text.Utf8Fault) :
    Escapes path format bytes (.undecodable fault)
  | digits {s : String} (hs : s.toUTF8 = bytes.toByteArray)
    (hformat : formatOf format path (linesOf s) = .json) (h : Json.HasLongInteger (linesOf s)) :
    Escapes path format bytes .tooLong
  | scalar {s : String} (hs : s.toUTF8 = bytes.toByteArray)
    (hformat : formatOf format path (linesOf s) = .yaml) {fault : Yaml.ScalarFault}
    (h : Yaml.HasMisfit (linesOf s) fault) : Escapes path format bytes (.scalar fault)

theorem escapes_of_not_isReported (h : look path.text = .file bytes) {format : Option Format}
    (hnot : ¬ IsReported (load look path format)) :
    ∃ failure, load look path format = .error failure ∧ Escapes path format bytes failure := by
  by_cases hs : ∃ s : String, s.toUTF8 = bytes.toByteArray
  · obtain ⟨s, hs⟩ := hs
    rw [load_of_text h hs] at hnot ⊢
    rw [isReported_loadText_iff] at hnot
    rcases readAs_of_not_fits hnot with ⟨hformat, hlong, hread⟩ | ⟨fault, hformat, hmisfit, hread⟩
    · exact ⟨.tooLong, by rw [loadText, hread]; rfl, .digits hs hformat hlong⟩
    · exact ⟨.scalar fault, by rw [loadText, hread]; rfl, .scalar hs hformat hmisfit⟩
  · have hall := not_exists.mp hs
    obtain ⟨fault, hload⟩ := load_of_undecodable h hall format
    exact ⟨.undecodable fault, hload, .bytes hall fault⟩

/-! ## Runs -/

namespace CommandLine

def Asks (look : Look) (environment : Environment) (args : List String) (path : Path)
    (format : Option Format) : Prop :=
  ∃ a r, Invocation.ofList? args = some (.generate a) ∧ a.request look environment = .ok r ∧
    r.input = path ∧ r.format = format

theorem run_of_load_eq_error {help : Page → String} {environment : Environment} {args : List String}
    {format : Option Format} (h : Asks look environment args path format) {failure : Failure}
    (hload : load look path format = .error failure) :
    run help look environment args = failed [] failure := by
  obtain ⟨a, r, ha, hr, rfl, rfl⟩ := h
  have hrun : run help look environment args = execute look r := by simp only [run, ha, hr]
  have hgenerate : (generate look r).run = ⟨.error failure, []⟩ := by
    unfold generate
    rw [hload]
    rfl
  rw [hrun, execute, hgenerate]
  rfl

theorem failed_failure_eq_none_iff {log : List String} {failure : Failure} :
    (failed log failure).failure = none ↔ ∃ fault, failure = .document fault := by
  cases failure <;> simp [failed]

theorem failed_exitCode (log : List String) (failure : Failure) :
    (failed log failure).exitCode = 1 := by
  cases failure <;> rfl

end CommandLine

open CommandLine

/-- A file is loaded as a mapping, or refused with a fault that the user is told, if and only if it is a
text whose scalars have values in its format. Any other file ends the program. -/
theorem isReported_load_iff (help : Page → String) (h : look path.text = .file bytes)
    (format : Option Format) :
    (IsReported (load look path format) ↔ ∃ s : String, s.toUTF8 = bytes.toByteArray ∧
      (formatOf format path (linesOf s)).Fits (linesOf s)) ∧
    ∀ failure, load look path format = .error failure →
      ((∃ fault, failure = .document fault) ∨ Escapes path format bytes failure) ∧
      ∀ environment args, Asks look environment args path format →
        (run help look environment args).exitCode = 1 ∧
        ((run help look environment args).failure = none ↔ ∃ fault, failure = .document fault) := by
  refine ⟨⟨fun hreported => ?_, ?_⟩, fun failure hload => ⟨?_, fun environment args hasks => ?_⟩⟩
  -- the bytes are decoded first, and failing to is no document fault
  · by_cases hs : ∃ s : String, s.toUTF8 = bytes.toByteArray
    · obtain ⟨s, hs⟩ := hs
      rw [load_of_text h hs, isReported_loadText_iff] at hreported
      exact ⟨s, hs, hreported⟩
    · obtain ⟨fault, hload⟩ := load_of_undecodable h (not_exists.mp hs) format
      rw [hload] at hreported
      obtain ⟨_, hfault⟩ := isReported_error_iff.mp hreported
      cases hfault
  · rintro ⟨s, hs, hfits⟩
    rw [load_of_text h hs, isReported_loadText_iff]
    exact hfits
  · by_cases hreported : IsReported (load look path format)
    · rw [hload] at hreported
      exact .inl (isReported_error_iff.mp hreported)
    · obtain ⟨failure', hload', hescapes⟩ := escapes_of_not_isReported h hreported
      cases hload'.symm.trans hload
      exact .inr hescapes
  · rw [run_of_load_eq_error hasks hload]
    exact ⟨failed_exitCode [] failure, failed_failure_eq_none_iff⟩

def bracesLook : Look := fun _ => .file [0x7b, 0x7d]

theorem isReported_load_braces : IsReported (load bracesLook ⟨"", ["a.json"]⟩ none) := by
  have hformat : formatOf none ⟨"", ["a.json"]⟩ (linesOf "\x7b\x7d") = .json := by decide +kernel
  refine (isReported_load_iff noHelp rfl none).1.mpr ⟨"\x7b\x7d", by decide +kernel, ?_⟩
  rw [hformat]
  show ¬ Json.HasLongInteger _
  rw [← Json.read_eq_tooLong_iff]
  intro hread
  have hok : (Json.read (some maxDigits) (linesOf "\x7b\x7d")).isOk = true := by decide +kernel
  rw [hread] at hok
  cases hok

def dateLook : Look := oneFile "a.yaml" "a: 2020-13-45\n"

def byteLook : Look := fun _ => .file [0xFF]

theorem not_isReported_of_map {x : Except Failure Document} {failure : Failure}
    (h : x.map (fun _ => ()) = .error failure) (hnot : ∀ fault, failure ≠ .document fault) :
    ¬ IsReported x := by
  cases x with
  | ok d => cases h
  | error e =>
    cases h
    rw [isReported_error_iff]
    exact not_exists.mpr hnot

theorem exists_not_isReported :
    (¬ IsReported (load dateLook ⟨"", ["a.yaml"]⟩ none) ∧
      (run noHelp dateLook noEnvironment ["generate", "-i", "a.yaml"]).failure = some (.scalar .form)) ∧
    ¬ IsReported (load byteLook ⟨"", ["a.json"]⟩ none) ∧
      (run noHelp byteLook noEnvironment ["generate", "-i", "a.json"]).failure.isSome := by
  have hdate : (load dateLook ⟨"", ["a.yaml"]⟩ none).map (fun _ => ()) = .error (.scalar .form) := by
    decide +kernel
  have hbyte : (load byteLook ⟨"", ["a.json"]⟩ none).map (fun _ => ()) =
      .error (.undecodable ⟨0, 0, 0xFF, .startByte⟩) := by
    decide +kernel
  refine ⟨⟨not_isReported_of_map hdate nofun, by decide +kernel⟩,
    not_isReported_of_map hbyte nofun, by decide +kernel⟩

end ApiTypes
