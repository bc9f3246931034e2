import ApiTypes.Proofs.Glyphs

/-!
# Reported delimiters

The reader of a text keeps, behind every character, the brackets that are open there and the
unexpected ones, each with the line that it stands in. So `problems` decides whether the brackets in
code are balanced, and its lines are off only by the line feeds that stand behind a backslash in a
literal.
-/

namespace ApiTypes.Delimiter

open Prose (StaysOpen)

/-! ## Steps -/

theorem bracket_of_not_isBracket (s : State) {c : Char} (h : isBracket c = false) :
    bracket s c = s := by
  simp only [isBracket, Bool.or_eq_false_iff, Option.isSome_eq_false_iff,
    Option.isNone_iff_eq_none] at h
  unfold bracket
  rw [h.1, if_neg Bool.false_ne_true, h.2]

theorem bracket_eq {s : State} {os : List Bracket} {b : Bracket} {line : Bracket → Nat}
    (hb : isBracket b.char = true) (hopen : s.openings = os.map fun b => (b.char, line b))
    (hline : s.line = line b) :
    bracket s b.char = { s with
      openings := (openAfter os b).map fun b => (b.char, line b)
      found := (if isUnexpected os b then [.unexpected b.char (line b)] else []) ++ s.found } := by
  obtain ⟨mode, place, openings, found⟩ := s
  dsimp only at hopen hline
  subst hopen hline
  unfold bracket
  rcases bracket_cases os hb with hopening | ⟨top, below, rfl, hclose⟩ | hunexpected
  · rw [if_pos hopening, openAfter_opening hopening, isUnexpected_opening hopening]
    rfl
  · rw [isOpening_closing hclose, openAfter_closing hclose, isUnexpected_closing hclose]
    simp [hclose]
  · rw [openAfter_unexpected hunexpected, if_pos hunexpected]
    simp only [isUnexpected, Bool.and_eq_true, bne_iff_ne] at hunexpected
    obtain ⟨o, ho⟩ := Option.isSome_iff_exists.mp hunexpected.1
    rw [isOpening_closing ho]
    cases os with
    | nil => simp [ho]
    | cons top below =>
      have hne : ¬ top.char = o := by
        rintro rfl
        exact hunexpected.2 ho
      simp [ho, hne]

/-- What the reader knows in the mode `m` behind the characters `pre` of a text. -/
structure At (all pre : List Glyph) (m : Mode) (s : State) : Prop where
  mode : s.mode = m
  line : s.line = 1 + pre.countP endsLine
  openings : s.openings = (opened (brackets pre)).map fun b => (b.char, lineAt all b.place)
  found : s.found.reverse = (unexpected (brackets pre)).map fun b =>
    .unexpected b.char (lineAt all b.place)

theorem at_start (all : List Glyph) : At all [] .code start := ⟨rfl, rfl, rfl, rfl⟩

theorem line_step {s : State} {pre : List Glyph} (h : s.line = 1 + pre.countP endsLine) {c : Char}
    {role : Role} (hrole : role = .escaped ↔ ∃ q, s.mode = .escape q) :
    (step s c).line = 1 + (pre ++ [(c, role)]).countP endsLine := by
  show lineAfter s c = _
  rw [List.countP_append, ← Nat.add_assoc, ← h]
  unfold lineAfter
  split
  · rename_i q hmode
    simp [hrole.mpr ⟨q, hmode⟩, endsLine]
  · rename_i hmode
    have hne : role ≠ .escaped := fun hescaped => by
      obtain ⟨q, hq⟩ := hrole.mp hescaped
      exact hmode q hq
    by_cases hc : c = '\n' <;> simp [endsLine, hc, hne]

namespace At

variable {all pre : List Glyph} {m : Mode} {s : State} {c : Char} (h : At all pre m s)
include h

theorem quiet {role : Role} (hquiet : m.inCode = true → isBracket c = false)
    (hrole : role ≠ .code) (hescaped : role = .escaped ↔ ∃ q, m = .escape q) :
    At all (pre ++ [(c, role)]) (modeAfter m c) (step s c) := by
  have hsame : (if m.inCode then bracket s c else s) = s := by
    split
    · exact bracket_of_not_isBracket s (hquiet ‹_›)
    · rfl
  have hword : brackets (pre ++ [(c, role)]) = brackets pre := by
    rw [brackets_concat]
    simp [hrole]
  refine ⟨by rw [← h.mode]; rfl, line_step h.line (by rw [h.mode]; exact hescaped), ?_, ?_⟩
  · rw [hword, ← h.openings, step, h.mode, hsame]
  · rw [hword, ← h.found, step, h.mode, hsame]

theorem inert (hquiet : m.inCode = true → isBracket c = false) (hescape : ∀ q, m ≠ .escape q) :
    At all (pre ++ [(c, .inert)]) (modeAfter m c) (step s c) :=
  h.quiet hquiet (by decide) (iff_of_false (by decide) fun ⟨q, hq⟩ => hescape q hq)

theorem code (hcode : m.inCode = true) (hpre : pre <+: all) :
    At all (pre ++ [(c, .code)]) (modeAfter m c) (step s c) := by
  have hescape : Role.code = .escaped ↔ ∃ q, s.mode = .escape q := by
    rw [h.mode]
    refine iff_of_false (by decide) ?_
    rintro ⟨q, rfl⟩
    cases hcode
  have hline := line_step (c := c) h.line hescape
  have hmode : (step s c).mode = modeAfter m c := by rw [← h.mode]; rfl
  have hstep : ∀ {t : State}, bracket s c = t →
      (step s c).openings = t.openings ∧ (step s c).found = t.found := by
    rintro t rfl
    rw [step, h.mode, if_pos hcode]
    exact ⟨rfl, rfl⟩
  by_cases hc : isBracket c = true
  -- the line of the state is that of the bracket
  · have hhere : s.line = lineAt all pre.length := by
      rw [h.line, lineAt, ← List.prefix_iff_eq_take.mp hpre]
    obtain ⟨hopenings, hfound⟩ := hstep (bracket_eq (b := ⟨c, pre.length⟩) hc h.openings hhere)
    have hword : brackets (pre ++ [(c, .code)]) = brackets pre ++ [⟨c, pre.length⟩] := by
      rw [brackets_concat, if_pos ⟨rfl, hc⟩]
    refine ⟨hmode, hline, ?_, ?_⟩
    · rw [hopenings, hword, opened_concat]
    · rw [hfound, hword, unexpected_concat, List.reverse_append, h.found, List.map_append]
      split <;> rfl
  · obtain ⟨hopenings, hfound⟩ := hstep (bracket_of_not_isBracket s (by simpa using hc))
    have hword : brackets (pre ++ [(c, .code)]) = brackets pre := by
      rw [brackets_concat, if_neg fun hboth => hc hboth.2, List.append_nil]
    exact ⟨hmode, hline, by rw [hopenings, hword, h.openings], by rw [hfound, hword, h.found]⟩

end At

/-! ## Literals and comments -/

section
variable {all pre : List Glyph} {s : State}

theorem at_inLiteral {quote : Char} {body : List Glyph} (hbody : InLiteral quote body)
    (h : At all pre (.literal quote) s) :
    At all (pre ++ body) (.literal quote) ((text body).foldl step s) := by
  induction hbody generalizing pre s with
  | nil => simpa using h
  | @plain c gs hquote hslash _ ih =>
    have hstep := h.inert (c := c) (by simp [Mode.inCode]) (by simp)
    rw [modeAfter, if_neg (by simpa using hslash), if_neg (by simpa using hquote)] at hstep
    simpa using ih hstep
  | @escape c gs _ ih =>
    have hslash := h.inert (c := '\\') (by simp [Mode.inCode]) (by simp)
    have hescaped : Role.escaped = .escaped ↔ ∃ q, Mode.escape quote = .escape q :=
      iff_of_true rfl ⟨quote, rfl⟩
    have hstep := hslash.quiet (c := c) (by simp [Mode.inCode, modeAfter]) (by decide) hescaped
    simpa using ih hstep

theorem at_lineComment {cs : List Char} (hcs : '\n' ∉ cs) (h : At all pre .lineComment s) :
    At all (pre ++ inert cs) .lineComment (cs.foldl step s) := by
  induction cs generalizing pre s with
  | nil => simpa [inert] using h
  | cons c cs ih =>
    rw [List.mem_cons, not_or] at hcs
    have hstep := h.inert (c := c) (by simp [Mode.inCode]) (by simp)
    rw [modeAfter, if_neg (by simpa using Ne.symm hcs.1)] at hstep
    simpa [inert] using ih hcs.2 hstep

/-- Inside a block comment the reader may stand behind an asterisk, so both modes are proved at
once. -/
theorem at_blockComment {cs : List Char} {m : Mode} (h : At all pre m s)
    (hcs : m = .blockComment ∧ StaysOpen cs ∨ m = .asterisk ∧ StaysOpen ('*' :: cs)) :
    ∃ m', (m' = .blockComment ∨ m' = .asterisk) ∧ At all (pre ++ inert cs) m' (cs.foldl step s) := by
  induction cs generalizing pre m s with
  | nil =>
    refine ⟨m, ?_, by simpa [inert] using h⟩
    rcases hcs with ⟨rfl, _⟩ | ⟨rfl, _⟩
    · exact .inl rfl
    · exact .inr rfl
  | cons c cs ih =>
    have hstep := h.inert (c := c) (by rcases hcs with ⟨rfl, _⟩ | ⟨rfl, _⟩ <;> simp [Mode.inCode])
      (by rcases hcs with ⟨rfl, _⟩ | ⟨rfl, _⟩ <;> simp)
    obtain ⟨m', hm', h'⟩ := ih hstep (by
      rcases hcs with ⟨rfl, hcs⟩ | ⟨rfl, hcs⟩
      · by_cases hc : c = '*'
        · subst hc
          exact .inr ⟨rfl, hcs⟩
        · exact .inl ⟨by simp [modeAfter, hc], (Prose.staysOpen_cons.mp hcs).2⟩
      · obtain ⟨hmark, hcs⟩ := Prose.staysOpen_cons.mp hcs
        have hslash : c ≠ '/' := fun hc => hmark ⟨rfl, by simp [hc]⟩
        by_cases hc : c = '*'
        · subst hc
          exact .inr ⟨rfl, hcs⟩
        · exact .inl ⟨by simp [modeAfter, hc, hslash], (Prose.staysOpen_cons.mp hcs).2⟩)
    exact ⟨m', hm', by simpa [inert] using h'⟩

end

/-! ## Whole texts -/

def Mode.quote? : Mode → Option Char
  | .literal q | .escape q => some q
  | _ => none

theorem State.unfinished_eq (s : State) : s.unfinished = s.mode.quote?.toList.map .unterminated ++
    s.openings.reverse.map fun (c, line) => .unclosed c line := by
  obtain ⟨mode, line, openings, found⟩ := s
  cases mode <;> rfl

def Mode.Awaits (m : Mode) (cs : List Char) : Prop :=
  m = .code ∨ m = .slash ∧ cs.head? ≠ some '/' ∧ cs.head? ≠ some '*'

theorem Mode.Awaits.inCode {m : Mode} {cs : List Char} (h : m.Awaits cs) : m.inCode = true := by
  rcases h with rfl | ⟨rfl, _⟩ <;> rfl

theorem Mode.Awaits.modeAfter_eq {m : Mode} {c : Char} {cs : List Char} (h : m.Awaits (c :: cs)) :
    modeAfter m c = modeInCode c := by
  rcases h with rfl | ⟨rfl, hslash, hstar⟩
  · rfl
  · have hslash : c ≠ '/' := by simpa using hslash
    have hstar : c ≠ '*' := by simpa using hstar
    simp [modeAfter, hslash, hstar]

theorem at_comment {all pre : List Glyph} {m : Mode} {s : State} {c : Char} {cs : List Char}
    (h : At all pre m s) (hm : m.Awaits ('/' :: c :: cs)) (hc : c = '/' ∨ c = '*') :
    At all (pre ++ inert ['/', c]) (modeAfter .slash c) (step (step s '/') c) := by
  have hfirst := h.inert (c := '/') (fun _ => rfl) (by rcases hm with rfl | ⟨rfl, _⟩ <;> simp)
  rw [hm.modeAfter_eq] at hfirst
  have hsecond := hfirst.inert (c := c) (fun _ => by rcases hc with rfl | rfl <;> rfl)
    (by simp [modeInCode])
  rw [List.append_assoc] at hsecond
  exact hsecond

theorem isQuote_cases {q : Char} (h : isQuote q = true) : q = '\'' ∨ q = '"' ∨ q = '\x60' := by
  simpa [isQuote, or_assoc] using h

theorem at_quote {all pre : List Glyph} {m : Mode} {s : State} {q : Char} {cs : List Char}
    (h : At all pre m s) (hm : m.Awaits (q :: cs)) (hq : isQuote q = true) :
    At all (pre ++ inert [q]) (.literal q) (step s q) := by
  have hbracket : isBracket q = false := by
    rcases isQuote_cases hq with rfl | rfl | rfl <;> rfl
  have hmode : modeInCode q = .literal q := by
    rcases isQuote_cases hq with rfl | rfl | rfl <;> rfl
  have hstep := h.inert (c := q) (fun _ => hbracket) (by rcases hm with rfl | ⟨rfl, _⟩ <;> simp)
  rw [hm.modeAfter_eq, hmode] at hstep
  exact hstep

theorem at_lexed {all rest : List Glyph} {quote? : Option Char} (hrest : Lexed rest quote?)
    {pre : List Glyph} {m : Mode} {s : State} (hall : pre ++ rest = all) (h : At all pre m s)
    (hm : m.Awaits (text rest)) :
    ∃ m', m'.quote? = quote? ∧ At all all m' ((text rest).foldl step s) := by
  -- each reading of a part moves the state past that part
  induction hrest generalizing pre m s with
  | nil =>
    rw [List.append_nil] at hall
    subst hall
    exact ⟨m, by rcases hm with rfl | ⟨rfl, _⟩ <;> rfl, h⟩
  | @code c gs quote? hquote hcomment _ ih =>
    have hstep := h.code (c := c) hm.inCode ⟨_, hall⟩
    rw [hm.modeAfter_eq] at hstep
    refine ih (by simpa using hall) hstep ?_
    -- behind a slash that opens no comment comes no second mark
    by_cases hslash : c = '/'
    · subst hslash
      refine .inr ⟨rfl, fun hhead => hcomment ⟨rfl, .inl hhead⟩,
        fun hhead => hcomment ⟨rfl, .inr hhead⟩⟩
    · exact .inl (by simp [modeInCode, hslash, hquote])
  | @literal q body gs quote? hquote hbody _ ih =>
    have hend := at_inLiteral hbody (at_quote h hm hquote)
    have hstep := hend.inert (c := q) (by simp [Mode.inCode]) (by simp)
    have hmode : modeAfter (.literal q) q = .code := by
      rcases isQuote_cases hquote with rfl | rfl | rfl <;> rfl
    rw [hmode] at hstep
    rw [text_cons, text_append, text_cons, List.foldl_cons, List.foldl_append, List.foldl_cons]
    exact ih (by simpa [inert] using hall) hstep (.inl rfl)
  | @openLiteral q body hquote hbody =>
    have hend := at_inLiteral hbody (at_quote h hm hquote)
    rw [List.append_assoc] at hend
    subst hall
    exact ⟨_, rfl, hend⟩
  | @brokenLiteral q body hquote hbody =>
    have hend := at_inLiteral hbody (at_quote h hm hquote)
    have hstep := hend.inert (c := '\\') (by simp [Mode.inCode]) (by simp)
    have hmode : modeAfter (.literal q) '\\' = .escape q := rfl
    rw [hmode] at hstep
    subst hall
    refine ⟨.escape q, rfl, ?_⟩
    rw [text_cons, text_append, text_inert, List.foldl_cons, List.foldl_append]
    simpa [inert] using hstep
  | @lineComment cs gs quote? hcs _ ih =>
    have hbody := at_lineComment hcs (at_comment h hm (.inl rfl))
    have hstep := hbody.inert (c := '\n') (by simp [Mode.inCode]) (by simp)
    have hmode : modeAfter .lineComment '\n' = .code := rfl
    rw [hmode] at hstep
    rw [text_append, text_inert, List.cons_append, List.cons_append, List.foldl_cons,
      List.foldl_cons, List.foldl_append, List.foldl_append]
    exact ih (by simpa [inert] using hall) hstep (.inl rfl)
  | @openLineComment cs hcs =>
    have hbody := at_lineComment hcs (at_comment h hm (.inl rfl))
    subst hall
    refine ⟨.lineComment, rfl, ?_⟩
    rw [text_inert, List.foldl_cons, List.foldl_cons]
    simpa [inert] using hbody
  | @blockComment cs gs quote? hcs _ ih =>
    obtain ⟨m', hm', hbody⟩ := at_blockComment (at_comment h hm (.inr rfl)) (.inl ⟨rfl, hcs⟩)
    have hstar := hbody.inert (c := '*') (by rcases hm' with rfl | rfl <;> simp [Mode.inCode])
      (by rcases hm' with rfl | rfl <;> simp)
    have hmode : modeAfter m' '*' = .asterisk := by rcases hm' with rfl | rfl <;> rfl
    rw [hmode] at hstar
    have hstep := hstar.inert (c := '/') (by simp [Mode.inCode]) (by simp)
    have hclosed : modeAfter .asterisk '/' = .code := rfl
    rw [hclosed] at hstep
    rw [text_append, text_inert, List.cons_append, List.cons_append, List.foldl_cons,
      List.foldl_cons, List.foldl_append, List.foldl_append]
    exact ih (by simpa [inert] using hall) hstep (.inl rfl)
  | @openBlockComment cs hcs =>
    obtain ⟨m', hm', hbody⟩ := at_blockComment (at_comment h hm (.inr rfl)) (.inl ⟨rfl, hcs⟩)
    subst hall
    refine ⟨m', by rcases hm' with rfl | rfl <;> rfl, ?_⟩
    rw [text_inert, List.foldl_cons, List.foldl_cons]
    simpa [inert] using hbody

/-! ## Reports -/

structure Reading (s : String) where
  glyphs : List Glyph
  quote? : Option Char
  lexed : Lexed glyphs quote?
  text_eq : text glyphs = s.toList

theorem nonempty_reading (s : String) : Nonempty (Reading s) := by
  obtain ⟨gs, quote?, hgs, htext⟩ := exists_lexed s.toList
  exact ⟨gs, quote?, hgs, htext⟩

namespace Reading

variable {s : String} (r : Reading s)

def word : List Bracket := brackets r.glyphs

def reported : List Bracket := unexpected r.word ++ (opened r.word).reverse

/-- The unexpected brackets in the order of the text, an open literal, and the open brackets,
outermost first, each bracket with a line. -/
def report (line : Bracket → Nat) : List Problem :=
  (unexpected r.word).map (fun b => .unexpected b.char (line b)) ++
    r.quote?.toList.map .unterminated ++
    (opened r.word).reverse.map fun b => .unclosed b.char (line b)

theorem isBracket_word : ∀ b ∈ r.word, isBracket b.char = true :=
  fun _ hb => (getElem?_of_mem_bracketsFrom hb).2.2

theorem getElem?_place {b : Bracket} (hb : b ∈ r.word) : s.toList[b.place]? = some b.char := by
  obtain ⟨-, hget, -⟩ := getElem?_of_mem_bracketsFrom hb
  rw [Nat.sub_zero] at hget
  rw [← r.text_eq, text, List.getElem?_map, hget]
  rfl

theorem problems_eq : problems s = r.report fun b => lineAt r.glyphs b.place := by
  obtain ⟨m, hquote, hend⟩ :=
    at_lexed r.lexed (List.nil_append _) (at_start r.glyphs) (.inl rfl)
  rw [r.text_eq] at hend
  unfold problems report word
  dsimp only
  rw [hend.found, State.unfinished_eq, hend.mode, hquote, hend.openings, ← List.map_reverse,
    List.map_map, List.append_assoc]
  rfl

theorem report_eq_nil_iff (line : Bracket → Nat) :
    r.report line = [] ↔ r.quote? = none ∧ Dyck (chars r.word) := by
  rw [dyck_iff r.isBracket_word]
  cases h : r.quote? <;> simp [report, h]

theorem report_inj {line line' : Bracket → Nat} :
    r.report line = r.report line' ↔ ∀ b ∈ r.reported, line b = line' b := by
  constructor
  · intro h
    obtain ⟨hfront, hopened⟩ := List.append_inj h (by simp)
    obtain ⟨hunexpected, -⟩ := List.append_inj hfront (by simp)
    intro b hb
    rcases List.mem_append.mp hb with hb | hb
    · exact (Problem.unexpected.inj (List.map_inj_left.mp hunexpected b hb)).2
    · exact (Problem.unclosed.inj (List.map_inj_left.mp hopened b hb)).2
  · intro h
    obtain ⟨hunexpected, hopened⟩ := List.forall_mem_append.mp h
    have hfront : ∀ b ∈ unexpected r.word,
        Problem.unexpected b.char (line b) = .unexpected b.char (line' b) :=
      fun b hb => by rw [hunexpected b hb]
    have hback : ∀ b ∈ (opened r.word).reverse,
        Problem.unclosed b.char (line b) = .unclosed b.char (line' b) :=
      fun b hb => by rw [hopened b hb]
    rw [report, report, List.map_congr_left hfront, List.map_congr_left hback]

end Reading

/-- The text is told apart, and no problem is found if and only if no literal is open at the end and
the brackets in code are balanced. What is found are the brackets that do not close the innermost
open one, an open literal, and the brackets that are open at the end; without the former, the latter
stand between balanced words. -/
theorem decides_balance (s : String) : Nonempty (Reading s) ∧ ∀ r : Reading s,
    (problems s = [] ↔ r.quote? = none ∧ Dyck (chars r.word)) ∧
      (problems s = r.report fun b => lineAt r.glyphs b.place) ∧
      Leaves (chars (expected r.word)) (chars (opened r.word)) := by
  refine ⟨nonempty_reading s, fun r => ⟨?_, r.problems_eq, leaves_opened r.isBracket_word⟩⟩
  rw [r.problems_eq]
  exact r.report_eq_nil_iff _

/-! ## Lines -/

def lineOf (s : String) (b : Bracket) : Nat := 1 + (s.toList.take b.place).count '\n'

def HasExactLines (s : String) : Prop := ∀ r : Reading s, problems s = r.report (lineOf s)

theorem countP_endsLine (gs : List Glyph) :
    gs.countP endsLine + gs.count ('\n', .escaped) = (text gs).count '\n' := by
  induction gs with
  | nil => rfl
  | cons g gs ih =>
    obtain ⟨c, role⟩ := g
    rw [text_cons, List.countP_cons, List.count_cons, List.count_cons, ← ih]
    by_cases hc : c = '\n'
    · by_cases hrole : role = .escaped
      · simp [endsLine, hc, hrole, Nat.add_assoc]
      · simp [endsLine, hc, hrole]; omega
    · simp [endsLine, hc]

theorem Reading.lineAt_add {s : String} (r : Reading s) (b : Bracket) :
    lineAt r.glyphs b.place + (r.glyphs.take b.place).count ('\n', .escaped) = lineOf s b := by
  rw [lineAt, lineOf, ← r.text_eq, Nat.add_assoc, countP_endsLine, text, text, List.map_take]

/-- A bracket is reported with the line feeds before it, but for those behind a backslash in a
literal, which are not counted. So the lines are exact if and only if no such line feed stands
before a reported bracket. -/
theorem hasExactLines_iff (s : String) :
    Nonempty (Reading s) ∧
    (∀ r : Reading s, (problems s = r.report fun b => lineAt r.glyphs b.place) ∧
      ∀ b ∈ r.word, s.toList[b.place]? = some b.char ∧
        lineAt r.glyphs b.place + (r.glyphs.take b.place).count ('\n', .escaped) = lineOf s b) ∧
    (HasExactLines s ↔
      ∀ r : Reading s, ∀ b ∈ r.reported, ('\n', .escaped) ∉ r.glyphs.take b.place) := by
  refine ⟨nonempty_reading s,
    fun r => ⟨r.problems_eq, fun b hb => ⟨r.getElem?_place hb, r.lineAt_add b⟩⟩, ?_⟩
  refine forall_congr' fun r => ?_
  rw [r.problems_eq, r.report_inj]
  refine forall_congr' fun b => forall_congr' fun _ => ?_
  rw [← r.lineAt_add b, ← List.count_eq_zero]
  omega

def feedInLiteral : Reading "'\\\n')" where
  glyphs := ('\'', .inert) :: [('\\', .inert), ('\n', .escaped)] ++
    ('\'', .inert) :: [(')', .code)]
  quote? := none
  lexed := .literal rfl (.escape .nil) (.code rfl (by decide) .nil)
  text_eq := rfl

theorem lineOf_feedInLiteral : ⟨')', 4⟩ ∈ feedInLiteral.word ∧
    "'\\\n')".toList[4]? = some ')' ∧
    lineAt feedInLiteral.glyphs 4 + (feedInLiteral.glyphs.take 4).count ('\n', .escaped) =
      lineOf "'\\\n')" ⟨')', 4⟩ :=
  have hmem : ⟨')', 4⟩ ∈ feedInLiteral.word := List.mem_cons_self
  ⟨hmem, ((hasExactLines_iff _).2.1 feedInLiteral).2 ⟨')', 4⟩ hmem⟩

/-- The line feed in the literal is skipped, so the bracket behind it is reported in the line before
its own. -/
theorem not_hasExactLines : ¬ HasExactLines "'\\\n')" := by
  intro h
  have hfound : [Problem.unexpected ')' 1] = [Problem.unexpected ')' 2] := h feedInLiteral
  exact absurd hfound (by decide)

end ApiTypes.Delimiter
