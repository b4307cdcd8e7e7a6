import FrankenSim.Ir.Forms
import FrankenSim.Ir.JsonSyntax
import FrankenSim.Library.Refusals

/-!
# The reader of the JSON mapping

A list is an array, and an atom is an object with one key that names its kind. The
reader refuses what is nested too deep, and everything behind the one value of a
program.
-/
namespace FrankenSim.Ir.Json

open Library

variable {F D : Type}

def isWs (c : Char) : Bool := c == ' ' || c == '\t' || c == '\r' || c == '\n'

def skipWs (cur : Cursor) : Cursor :=
  ⟨cur.pos + utf8Length (cur.rest.takeWhile isWs), cur.rest.dropWhile isWs⟩

/-- One digit or more in front, and what follows them. -/
def skipDigits (text : Text) : Option Text :=
  if (text.head?).any Char.isDigit then some (text.dropWhile Char.isDigit) else none

def skipMinus (text : Text) : Text := if text.head? = some '-' then text.tail else text

/-- The integer part: a zero, or digits without a leading zero. -/
def skipInteger (text : Text) : Option Text :=
  if text.head? = some '0' then some text.tail else skipDigits text

def skipFraction (text : Text) : Option Text :=
  if text.head? = some '.' then skipDigits text.tail else some text

def skipExponent (text : Text) : Option Text :=
  if text.head? = some 'e' ∨ text.head? = some 'E' then
    skipDigits (if text.tail.head? = some '+' ∨ text.tail.head? = some '-' then text.tail.tail
      else text.tail)
  else some text

def isRfc8259Number (text : Text) : Bool :=
  (((skipInteger (skipMinus text)).bind skipFraction).bind skipExponent) == some []

def isNumberScalar (c : Char) : Bool :=
  c.isDigit || c == '.' || c == 'e' || c == 'E' || c == '+' || c == '-'

/-- A number token: its text, its range and the position behind it. -/
def parseNumberToken (R : Readers F D) (cur : Cursor) : Except IrError (Text × Span × Cursor) :=
  let text := cur.rest.takeWhile isNumberScalar
  let next : Cursor := ⟨cur.pos + utf8Length text, cur.rest.dropWhile isNumberScalar⟩
  if text = [] then
    .error ⟨⟨cur.pos, min (cur.pos + 1) cur.stop⟩, .jsonSyntax, "expected a number",
      "\"i\" and \"f\" tags carry JSON numbers"⟩
  else if !isRfc8259Number text then
    .error ⟨⟨cur.pos, next.pos⟩, .badNumber, R.debug text ++ " is not an RFC 8259 JSON number",
      "use -?(0|[1-9][0-9]*)(.[0-9]+)?([eE][+-]?[0-9]+)?"⟩
  else .ok (text, ⟨cur.pos, next.pos⟩, next)

def intKind (R : Readers F D) (text : Text) (span : Span) : Except IrError (Atom F D) :=
  match parseI64 text with
  | some v => .ok (.int v)
  | none => .error ⟨span, .badNumber, R.debug text ++ " is not an i64",
      "\"i\" carries integers; use \"f\" for floats"⟩

def floatKind (R : Readers F D) (text : Text) (span : Span) : Except IrError (Atom F D) :=
  match (R.parseF64 text).filter R.isFinite with
  | some v => .ok (.float v)
  | none => .error ⟨span, .badNumber, R.debug text ++ " is not a finite f64",
      "IR literals must be finite"⟩

/-- The literals of a tag. -/
def matchesTag (tag : Text) : Atom F D → Bool
  | .qty _ _ _ => tag = "q".toList
  | .count _ _ => tag = "c".toList
  | .seed _ => tag = "seed".toList
  | _ => false

def literalKind (R : Readers F D) (tag text : Text) (span : Span) :
    Except IrError (Atom F D) :=
  match classifyAtom R text span with
  | .error e => .error e
  | .ok (.atom kind _) =>
    if matchesTag tag kind then .ok kind
    else .error ⟨span, .jsonTagMismatch,
      "literal " ++ R.debug text ++ " does not match tag " ++ R.debug tag,
      "\"q\" carries quantities like \"0.12Pa*s\"; \"c\" counts like \"384GiB\"; " ++
        "\"seed\" hex like \"0xF00D0002\""⟩
  | .ok (.list _ _) => .error ⟨span, .jsonTagMismatch,
      "literal " ++ R.debug text ++ " does not match tag " ++ R.debug tag,
      "\"q\" carries quantities like \"0.12Pa*s\"; \"c\" counts like \"384GiB\"; " ++
        "\"seed\" hex like \"0xF00D0002\""⟩

def parseMeaning (token : Cursor → Except IrError (Text × Span × Cursor))
    (meaning : Text → Span → Except IrError (Atom F D)) (cur : Cursor) :
    Except IrError (Atom F D × Cursor) :=
  match token cur with
  | .error e => .error e
  | .ok (text, span, next) =>
    match meaning text span with
    | .error e => .error e
    | .ok kind => .ok (kind, next)

/-- The value behind a tag of an object that starts at `start`. -/
def parseKind (R : Readers F D) (start : ℕ) (tag : Text) (cur : Cursor) :
    Except IrError (Atom F D × Cursor) :=
  if tag = "i".toList then parseMeaning (parseNumberToken R) (intKind R) cur
  else if tag = "f".toList then parseMeaning (parseNumberToken R) (floatKind R) cur
  else if tag = "q".toList ∨ tag = "c".toList ∨ tag = "seed".toList then
    parseMeaning parseStringToken (literalKind R tag) cur
  else if tag = "s".toList then parseMeaning parseStringToken (fun text _ => .ok (.str text)) cur
  else if tag = "sym".toList then
    parseMeaning parseStringToken (fun text _ => .ok (.symbol text)) cur
  else if tag = "kw".toList then
    parseMeaning parseStringToken (fun text _ => .ok (.keyword text)) cur
  else
    .error ⟨⟨start, cur.pos⟩, .jsonUnknownTag, "unknown atom tag " ++ R.debug tag,
      "known tags: i f q c seed s sym kw"⟩

def parseTagged (R : Readers F D) (cur : Cursor) : Except IrError (Node F D × Cursor) := do
  let (tag, _, next) ← parseStringToken (skipWs ⟨cur.pos + 1, cur.rest.tail⟩)
  let next ← expect (skipWs next) ':' "':' after the tag"
  let (kind, next) ← parseKind R cur.pos tag (skipWs next)
  let next ← expect (skipWs next) '\x7d' "'\x7d' closing the atom object"
  .ok (.atom kind ⟨cur.pos, next.pos⟩, next)

/-- The loop over the values of an array that starts at `start`. The fuel is more than
the scalars that are left. -/
def parseElements (value : Cursor → Except IrError (Node F D × Cursor)) (start : ℕ) :
    ℕ → Cursor → List (Node F D) → Except IrError (Node F D × Cursor)
  | 0, cur, _ => .error ⟨⟨start, cur.pos⟩, .jsonSyntax, "expected ',' or ']' in array",
      "separate list items with commas"⟩
  | fuel + 1, cur, items =>
    match value cur with
    | .error e => .error e
    | .ok (node, next) =>
      let next := skipWs next
      if next.rest.head? = some ',' then
        parseElements value start fuel ⟨next.pos + 1, next.rest.tail⟩ (items ++ [node])
      else if next.rest.head? = some ']' then
        .ok (.list (items ++ [node]) ⟨start, next.pos + 1⟩, ⟨next.pos + 1, next.rest.tail⟩)
      else .error ⟨⟨next.pos, min (next.pos + 1) next.stop⟩, .jsonSyntax,
        "expected ',' or ']' in array", "separate list items with commas"⟩

def parseArray (value : Cursor → Except IrError (Node F D × Cursor)) (cur : Cursor) :
    Except IrError (Node F D × Cursor) :=
  let opened := skipWs ⟨cur.pos + 1, cur.rest.tail⟩
  if opened.rest.head? = some ']' then
    .ok (.list [] ⟨cur.pos, opened.pos + 1⟩, ⟨opened.pos + 1, opened.rest.tail⟩)
  else parseElements value cur.pos (opened.rest.length + 1) opened []

/-- The value at a cursor, which may be nested so many levels deep. -/
def parseValue (R : Readers F D) : ℕ → Cursor → Except IrError (Node F D × Cursor)
  | 0, cur => .error ⟨⟨cur.pos, min (cur.pos + 1) cur.stop⟩, .tooDeep,
      "nesting exceeds the " ++ toString MAX_DEPTH ++ "-level cap",
      "flatten the program; adversarial nesting is refused by design"⟩
  | levels + 1, cur =>
    let cur := skipWs cur
    match cur.rest with
    | [] => .error ⟨⟨cur.pos, cur.pos⟩, .unexpectedEnd, "expected a value, found end of input",
        "supply a complete JSON value"⟩
    | c :: _ =>
      if c = '[' then parseArray (parseValue R levels) cur
      else if c = '\x7b' then parseTagged R cur
      else .error ⟨⟨cur.pos, min (cur.pos + 1) cur.stop⟩, .jsonSyntax,
        "expected an array (list) or a single-key tagged object (atom)",
        "atoms are \x7b\"i\":..\x7d/\x7b\"f\":..\x7d/\x7b\"q\":..\x7d/\x7b\"c\":..\x7d/" ++
          "\x7b\"seed\":..\x7d/\x7b\"s\":..\x7d/\x7b\"sym\":..\x7d/\x7b\"kw\":..\x7d"⟩

def parse [DecidableEq D] (K : Codec F D) (src : Text) : Except IrError (Node F D) := do
  let (node, next) ← parseValue K.toReaders (MAX_DEPTH + 1) (skipWs ⟨0, src⟩)
  let last := skipWs next
  if last.rest ≠ [] then
    .error ⟨⟨last.pos, last.stop⟩, .trailingInput, "input continues after the top-level value",
      "a program is exactly one JSON value"⟩
  else
    node.validate K
    return node

section Tokens

/-- Nothing that continues a number. -/
def Plain (rest : Text) : Prop := ∀ c ∈ rest.head?, isNumberScalar c = false

/-- A token was read, and is read the same wherever it stands. -/
def ReadsToken (token : Cursor → Except IrError (Text × Span × Cursor)) (cur : Cursor)
    (r : Text × Span × Cursor) : Prop :=
  ∃ text, (∃ c ∈ text.head?, isWs c = false) ∧ Reads cur text r.2.2 ∧
    r.2.1 = ⟨cur.pos, r.2.2.pos⟩ ∧ ∀ pos rest, Plain rest → token ⟨pos, text ++ rest⟩ =
      .ok (r.1, ⟨pos, pos + utf8Length text⟩, ⟨pos + utf8Length text, rest⟩)

theorem reads_head {cur : Cursor} {c : Char} (h : cur.rest.head? = some c) (hc : c.utf8Size = 1) :
    Reads cur [c] ⟨cur.pos + 1, cur.rest.tail⟩ := by
  obtain ⟨pos, rest⟩ := cur
  cases rest with
  | nil => cases h
  | cons x rest =>
    cases h
    refine ⟨rfl, ?_⟩
    rw [utf8Length_cons, utf8Length_nil, hc]

theorem within_expect (cur : Cursor) {c : Char} (hc : c.utf8Size = 1) (what : String) :
    Within (InSource cur.stop) (Reads cur [c]) (expect cur c what) := by
  obtain ⟨pos, rest⟩ := cur
  have hle := Cursor.pos_le_stop ⟨pos, rest⟩
  cases rest with
  | nil => exact inSource_min hle _ _ _
  | cons x rest =>
    rw [expect]
    dsimp only
    split_ifs with hx
    · refine ⟨congrArg (· :: rest) hx, ?_⟩
      rw [utf8Length_cons, utf8Length_nil, hc]
    · exact inSource_min hle _ _ _

theorem expect_cons (pos : ℕ) (c : Char) (rest : Text) (what : String) :
    expect ⟨pos, c :: rest⟩ c what = .ok ⟨pos + 1, rest⟩ := by
  simp [expect]

def Blank (gap : Text) : Prop := ∀ c ∈ gap, isWs c = true

theorem skipWs_spec (cur : Cursor) :
    ∃ gap, Blank gap ∧ Reads cur gap (skipWs cur) ∧
      ∀ c ∈ (skipWs cur).rest.head?, isWs c = false := by
  refine ⟨cur.rest.takeWhile isWs, ?_, ⟨?_, rfl⟩, ?_⟩
  · exact fun c hc => List.all_eq_true.1 List.all_takeWhile c hc
  · exact List.takeWhile_append_dropWhile.symm
  · intro c hc
    have hstop := List.head?_dropWhile_not isWs cur.rest
    rw [skipWs] at hc
    rw [hc] at hstop
    simpa using hstop

theorem skipWs_append {gap rest : Text} (hgap : Blank gap)
    (hrest : ∀ c ∈ rest.head?, isWs c = false) (pos : ℕ) :
    skipWs ⟨pos, gap ++ rest⟩ = ⟨pos + utf8Length gap, rest⟩ := by
  obtain ⟨htake, hdrop⟩ := takeWhile_ended hgap hrest
  rw [skipWs]
  simp only [htake, hdrop]

theorem readEscape_error {pos stop : ℕ} (hle : pos ≤ stop) {rest : Text} {e : IrError}
    (h : readEscape pos stop rest = .error e) : InSource stop e := by
  have hu : ∀ k, InSource stop (uEscapeErr ⟨pos, min (pos + k) stop⟩) := fun k =>
    inSource_min hle _ _ _
  have hlow : ∀ {code : ℕ} {rest : Text},
      readLow ⟨pos, min (pos + 12) stop⟩ code rest = .error e → InSource stop e := by
    intro code rest h
    unfold readLow at h
    split at h
    case h_2 =>
      cases h
      exact hu 12
    case h_1 =>
      split at h
      case h_1 =>
        cases h
        exact hu 12
      case h_2 =>
        split at h
        case isFalse =>
          cases h
          exact hu 12
        case isTrue =>
          split at h
          case h_1 => cases h
          case h_2 =>
            cases h
            exact hu 12
  unfold readEscape at h
  split at h
  case h_1 =>
    split at h
    case h_1 =>
      cases h
      exact hu 6
    case h_2 =>
      split_ifs at h
      · exact hlow h
      · cases h
        exact hu 6
      · split at h
        case h_1 => cases h
        case h_2 =>
          cases h
          exact hu 6
  case h_2 =>
    split at h
    case h_1 => cases h
    case h_2 =>
      cases h
      exact inSource_min hle _ _ _

theorem utf8Length_drop_escape {pos stop taken : ℕ} {rest : Text} {c : Char}
    (h : readEscape pos stop rest = .ok (c, taken)) :
    taken + utf8Length (rest.drop taken) = utf8Length rest := by
  obtain ⟨token, hvalid, -, htext⟩ := readEscape_eq_ok h
  have hescape : ∀ c, token ≠ .unescaped c := by
    rintro c rfl
    rw [StringToken.text, List.singleton_append, List.cons.injEq] at htext
    exact hvalid.2.2 htext.1.symm
  rw [text_eq_cons hescape, List.cons_append, List.cons.injEq] at htext
  have htaken := @readEscape_token pos stop token hvalid hescape (rest.drop taken)
  rw [← htext.2, h] at htaken
  cases htaken
  have hlength := congrArg utf8Length htext.2
  rw [utf8Length_append, utf8Length_escape hvalid hescape] at hlength
  exact hlength.symm

theorem readScalars_error {start pos : ℕ} (hle : start ≤ pos) {rest out : Text} {e : IrError}
    (h : readScalars start pos rest out = .error e) : InSource (pos + utf8Length rest) e := by
  induction hlength : rest.length using Nat.strong_induction_on generalizing pos rest out with
  | _ length ih =>
    cases rest with
    | nil =>
      rw [readScalars] at h
      cases h
      exact ⟨hle, Nat.le_add_right _ _⟩
    | cons c later =>
      have hstop : pos + utf8Length (c :: later) = pos + c.utf8Size + utf8Length later := by
        rw [utf8Length_cons, Nat.add_assoc]
      rw [readScalars] at h
      split_ifs at h with hquote hslash hcontrol
      · split at h
        case h_1 e' hescape =>
          cases h
          exact readEscape_error (Nat.le_add_right _ _) hescape
        case h_2 scalar taken hescape =>
          have hlater := ih _ (by simp at hlength ⊢; omega) (by omega) h rfl
          have hbytes := utf8Length_drop_escape hescape
          have hsize : c.utf8Size = 1 := by
            rw [hslash]
            rfl
          rw [hstop, hsize, ← hbytes, ← Nat.add_assoc]
          exact hlater
      · cases h
        have hpos := c.utf8Size_pos
        exact ⟨Nat.le_succ _, by rw [hstop]; simp only; omega⟩
      · rw [hstop]
        exact ih _ (by simp at hlength ⊢; omega) (by omega) h rfl

theorem parseStringToken_within (cur : Cursor) :
    Within (InSource cur.stop) (ReadsToken parseStringToken cur) (parseStringToken cur) := by
  cases h : parseStringToken cur with
  | error e =>
    rw [parseStringToken] at h
    have hexpect := within_expect cur (show '"'.utf8Size = 1 from rfl) "'\"' opening a string"
    cases hopened : expect cur '"' "'\"' opening a string" with
    | error e' =>
      rw [hopened] at h hexpect
      cases h
      exact hexpect
    | ok opened =>
      rw [hopened] at h hexpect
      have hread : Reads cur ['"'] opened := hexpect
      have herror := readScalars_error hread.le_pos h
      rw [← hread.stop_eq]
      exact herror
  | ok r =>
    obtain ⟨out, span, next⟩ := r
    obtain ⟨tokens, text, hrest, hquotes, rfl⟩ := parseStringToken_eq_ok h
    have hread := parseStringToken_quotes hquotes cur.pos next.rest
    rw [← hrest, h, Except.ok.injEq, Prod.mk.injEq, Prod.mk.injEq] at hread
    obtain ⟨-, rfl, hnext⟩ := hread
    have hpos : next.pos = cur.pos + utf8Length text := congrArg Cursor.pos hnext
    refine ⟨text, ?_, ⟨hrest, hpos⟩, ?_, fun pos rest _ => parseStringToken_quotes hquotes pos rest⟩
    · rw [hquotes.2]
      exact ⟨'"', rfl, rfl⟩
    · rw [hpos]

theorem isWs_number {c : Char} (h : isNumberScalar c = true) : isWs c = false := by
  cases hws : isWs c with
  | false => rfl
  | true =>
    simp only [isWs, Bool.or_eq_true, beq_iff_eq] at hws
    rcases hws with ((rfl | rfl) | rfl) | rfl
    all_goals exact absurd h (by decide)

theorem parseNumberToken_within (R : Readers F D) (cur : Cursor) :
    Within (InSource cur.stop) (ReadsToken (parseNumberToken R) cur) (parseNumberToken R cur) := by
  have hparts := @List.takeWhile_append_dropWhile _ isNumberScalar cur.rest
  have hread : Reads cur (cur.rest.takeWhile isNumberScalar)
      ⟨cur.pos + utf8Length (cur.rest.takeWhile isNumberScalar),
        cur.rest.dropWhile isNumberScalar⟩ := ⟨hparts.symm, rfl⟩
  have hall : ∀ c ∈ cur.rest.takeWhile isNumberScalar, isNumberScalar c = true :=
    fun c hc => List.all_eq_true.1 List.all_takeWhile c hc
  rw [parseNumberToken]
  generalize cur.rest.takeWhile isNumberScalar = text at *
  generalize cur.rest.dropWhile isNumberScalar = rest at *
  dsimp only
  split_ifs with hnil hnumber
  · exact inSource_min cur.pos_le_stop _ _ _
  · exact ⟨hread.le_pos, hread.pos_le_stop⟩
  · refine ⟨text, ?_, hread, rfl, fun pos rest' hrest => ?_⟩
    · obtain ⟨c, later, rfl⟩ := List.exists_cons_of_ne_nil hnil
      exact ⟨c, rfl, isWs_number (hall c List.mem_cons_self)⟩
    · obtain ⟨htake, hdrop⟩ := takeWhile_ended hall hrest
      simp only [parseNumberToken, htake, hdrop, if_neg hnil, if_neg hnumber]

end Tokens

section Atoms

/-- A meaning that does not depend on the span, which it only refuses. -/
def Spanned (meaning : Text → Span → Except IrError (Atom F D)) : Prop :=
  ∀ text span, match meaning text span with
    | .error e => e.span = span
    | .ok kind => ∀ span', meaning text span' = .ok kind

/-- A value was read, and is read the same wherever it and its object stand. -/
def ReadsKind (read : ℕ → Cursor → Except IrError (Atom F D × Cursor)) (cur : Cursor)
    (r : Atom F D × Cursor) : Prop :=
  ∃ text, (∃ c ∈ text.head?, isWs c = false) ∧ Reads cur text r.2 ∧
    ∀ start pos rest, Plain rest →
      read start ⟨pos, text ++ rest⟩ = .ok (r.1, ⟨pos + utf8Length text, rest⟩)

theorem parseMeaning_within {token : Cursor → Except IrError (Text × Span × Cursor)}
    {meaning : Text → Span → Except IrError (Atom F D)} {cur : Cursor}
    (htoken : Within (InSource cur.stop) (ReadsToken token cur) (token cur))
    (hmeaning : Spanned meaning) :
    Within (InSource cur.stop) (ReadsKind (fun _ => parseMeaning token meaning) cur)
      (parseMeaning token meaning cur) := by
  rw [parseMeaning]
  cases h : token cur with
  | error e =>
    rw [h] at htoken
    exact htoken
  | ok r =>
    obtain ⟨value, span, next⟩ := r
    obtain ⟨text, hhead, hread, hspan, hsame⟩ := htoken.of_ok h
    have hvalue := hmeaning value span
    dsimp only at hspan hread hsame ⊢
    cases hkind : meaning value span with
    | error e =>
      rw [hkind] at hvalue
      dsimp only at hvalue
      rw [Within, InSource, hvalue, hspan]
      exact ⟨hread.le_pos, hread.pos_le_stop⟩
    | ok kind =>
      rw [hkind] at hvalue
      refine ⟨text, hhead, hread, fun _ pos rest hrest => ?_⟩
      simp only [parseMeaning, hsame pos rest hrest, hvalue _]

theorem intKind_spanned (R : Readers F D) : Spanned (intKind R) := by
  intro text span
  unfold intKind
  cases parseI64 text <;> simp

theorem floatKind_spanned (R : Readers F D) : Spanned (floatKind R) := by
  intro text span
  unfold floatKind
  cases (R.parseF64 text).filter R.isFinite <;> simp

theorem literalKind_spanned (R : Readers F D) (tag : Text) : Spanned (literalKind R tag) := by
  intro text span
  have hlocated := classifyAtom_located R text
  unfold literalKind
  cases h : classifyAtom R text span with
  | error e => exact hlocated.refused _ _ h
  | ok node =>
    obtain ⟨kind, rfl, hsame⟩ := hlocated.same _ _ h
    dsimp only
    cases hmatch : matchesTag tag kind with
    | false => simp
    | true =>
      simp only [if_true]
      intro span'
      simp [hsame, hmatch]

theorem parseKind_cases (R : Readers F D) (tag : Text) :
    (∃ token meaning, Spanned meaning ∧
      (∀ cur : Cursor, Within (InSource cur.stop) (ReadsToken token cur) (token cur)) ∧
      ∀ start cur, parseKind R start tag cur = parseMeaning token meaning cur) ∨
    ∀ start cur, parseKind R start tag cur = .error ⟨⟨start, cur.pos⟩, .jsonUnknownTag,
      "unknown atom tag " ++ R.debug tag, "known tags: i f q c seed s sym kw"⟩ := by
  have hplain : ∀ kind : Text → Atom F D, Spanned fun text _ => .ok (kind text) := by
    intro kind text span
    simp
  unfold parseKind
  by_cases hint : tag = "i".toList
  · simp only [if_pos hint]
    exact .inl ⟨_, _, intKind_spanned R, parseNumberToken_within R, fun _ _ => rfl⟩
  by_cases hfloat : tag = "f".toList
  · simp only [if_neg hint, if_pos hfloat]
    exact .inl ⟨_, _, floatKind_spanned R, parseNumberToken_within R, fun _ _ => rfl⟩
  by_cases hliteral : tag = "q".toList ∨ tag = "c".toList ∨ tag = "seed".toList
  · simp only [if_neg hint, if_neg hfloat, if_pos hliteral]
    exact .inl ⟨_, _, literalKind_spanned R tag, parseStringToken_within, fun _ _ => rfl⟩
  by_cases hstr : tag = "s".toList
  · simp only [if_neg hint, if_neg hfloat, if_neg hliteral, if_pos hstr]
    exact .inl ⟨_, _, hplain .str, parseStringToken_within, fun _ _ => rfl⟩
  by_cases hsymbol : tag = "sym".toList
  · simp only [if_neg hint, if_neg hfloat, if_neg hliteral, if_neg hstr, if_pos hsymbol]
    exact .inl ⟨_, _, hplain .symbol, parseStringToken_within, fun _ _ => rfl⟩
  by_cases hkeyword : tag = "kw".toList
  · simp only [if_neg hint, if_neg hfloat, if_neg hliteral, if_neg hstr, if_neg hsymbol,
      if_pos hkeyword]
    exact .inl ⟨_, _, hplain .keyword, parseStringToken_within, fun _ _ => rfl⟩
  right
  intro start cur
  rw [if_neg hint, if_neg hfloat, if_neg hliteral, if_neg hstr, if_neg hsymbol, if_neg hkeyword]

theorem parseKind_within (R : Readers F D) {start : ℕ} {tag : Text} {cur : Cursor}
    (hstart : start ≤ cur.pos) :
    Within (InSource cur.stop) (ReadsKind (fun start => parseKind R start tag) cur)
      (parseKind R start tag cur) := by
  rcases parseKind_cases R tag with ⟨token, meaning, hmeaning, htoken, hkind⟩ | hkind
  · rw [hkind, funext fun start => funext (hkind start)]
    exact parseMeaning_within (htoken cur) hmeaning
  · rw [hkind]
    exact ⟨hstart, cur.pos_le_stop⟩

/-- The text of an atom, which means the same wherever it stands. -/
def Tagged (R : Readers F D) (text : Text) (kind : Atom F D) : Prop :=
  text.head? = some '\x7b' ∧ ∀ pos rest, parseTagged R ⟨pos, text ++ rest⟩ =
    .ok (.atom kind ⟨pos, pos + utf8Length text⟩, ⟨pos + utf8Length text, rest⟩)

theorem head_append {text : Text} (h : ∃ c ∈ text.head?, isWs c = false) (rest : Text) :
    ∀ c ∈ (text ++ rest).head?, isWs c = false := by
  obtain ⟨c, hc, hws⟩ := h
  intro x hx
  rw [List.head?_append, hc] at hx
  cases hx
  exact hws

/-- Whitespace and a mark behind it do not continue a number. -/
theorem plain_append {gap : Text} (hgap : Blank gap) {mark : Char}
    (hmark : isNumberScalar mark = false) (rest : Text) : Plain (gap ++ mark :: rest) := by
  intro c hc
  cases gap with
  | nil =>
    cases hc
    exact hmark
  | cons x gap =>
    cases hc
    rw [← Bool.not_eq_true]
    intro hnumber
    exact absurd (hgap c List.mem_cons_self) (by simp [isWs_number hnumber])

theorem tagged_text (R : Readers F D) {gap₁ gap₂ gap₃ gap₄ tagText kindText tag : Text}
    {kind : Atom F D} (hgap₁ : Blank gap₁) (hgap₂ : Blank gap₂) (hgap₃ : Blank gap₃)
    (hgap₄ : Blank gap₄)
    (htagHead : ∃ c ∈ tagText.head?, isWs c = false)
    (htag : ∀ pos rest, Plain rest → parseStringToken ⟨pos, tagText ++ rest⟩ =
      .ok (tag, ⟨pos, pos + utf8Length tagText⟩, ⟨pos + utf8Length tagText, rest⟩))
    (hkindHead : ∃ c ∈ kindText.head?, isWs c = false)
    (hkind : ∀ start pos rest, Plain rest → parseKind R start tag ⟨pos, kindText ++ rest⟩ =
      .ok (kind, ⟨pos + utf8Length kindText, rest⟩)) :
    Tagged R ('\x7b' :: (gap₁ ++ (tagText ++ (gap₂ ++ (':' :: (gap₃ ++ (kindText ++
      (gap₄ ++ ['\x7d'])))))))) kind := by
  refine ⟨rfl, fun pos rest => ?_⟩
  have hmark : ∀ {mark : Char} (rest : Text), isWs mark = false →
      ∀ c ∈ (mark :: rest).head?, isWs c = false := by
    intro mark rest hmark c hc
    cases hc
    exact hmark
  have hopening : '\x7b'.utf8Size = 1 := rfl
  have hcolon : ':'.utf8Size = 1 := rfl
  have hclosing : '\x7d'.utf8Size = 1 := rfl
  rw [parseTagged]
  simp only [List.cons_append, List.append_assoc, List.nil_append, List.tail_cons]
  simp only [skipWs_append hgap₁ (head_append htagHead _),
    htag _ _ (plain_append hgap₂ (show isNumberScalar ':' = false by decide) _),
    skipWs_append hgap₂ (hmark _ (show isWs ':' = false by decide)), bind, Except.bind, expect_cons,
    skipWs_append hgap₃ (head_append hkindHead _),
    hkind _ _ _ (plain_append hgap₄ (show isNumberScalar '\x7d' = false by decide) _),
    skipWs_append hgap₄ (hmark _ (show isWs '\x7d' = false by decide)), utf8Length_cons,
    utf8Length_append, utf8Length_nil, hopening, hcolon, hclosing, Nat.add_zero, Nat.add_assoc]

theorem parseTagged_within (R : Readers F D) {cur : Cursor}
    (hopen : cur.rest.head? = some '\x7b') :
    Within (InSource cur.stop) (fun r => ∃ text kind, Tagged R text kind ∧ Reads cur text r.2 ∧
        r.1 = .atom kind ⟨cur.pos, r.2.pos⟩) (parseTagged R cur) := by
  have hopened := reads_head hopen rfl
  obtain ⟨gap₁, hgap₁, hread₁, -⟩ := skipWs_spec ⟨cur.pos + 1, cur.rest.tail⟩
  have hfront := hopened.trans hread₁
  rw [parseTagged]
  generalize skipWs ⟨cur.pos + 1, cur.rest.tail⟩ = start at *
  have htag := parseStringToken_within start
  rw [hfront.stop_eq] at htag
  apply htag.bind
  rintro ⟨tag, span, next⟩ ⟨tagText, htagHead, htagRead, -, htagSame⟩
  obtain ⟨gap₂, hgap₂, hread₂, -⟩ := skipWs_spec next
  have hfront := (hfront.trans htagRead).trans hread₂
  have hcolon := within_expect (skipWs next) (show ':'.utf8Size = 1 from rfl) "':' after the tag"
  rw [hfront.stop_eq] at hcolon
  apply hcolon.bind
  intro next₂ hcolonRead
  obtain ⟨gap₃, hgap₃, hread₃, -⟩ := skipWs_spec next₂
  have hfront := (hfront.trans hcolonRead).trans hread₃
  have hkind := @parseKind_within _ _ R cur.pos tag _ hfront.le_pos
  rw [hfront.stop_eq] at hkind
  apply hkind.bind
  rintro ⟨kind, next₃⟩ ⟨kindText, hkindHead, hkindRead, hkindSame⟩
  obtain ⟨gap₄, hgap₄, hread₄, -⟩ := skipWs_spec next₃
  have hfront := (hfront.trans hkindRead).trans hread₄
  have hclosing := within_expect (skipWs next₃) (show '\x7d'.utf8Size = 1 from rfl)
    "'\x7d' closing the atom object"
  rw [hfront.stop_eq] at hclosing
  apply hclosing.bind
  intro last hlast
  have htext := tagged_text R hgap₁ hgap₂ hgap₃ hgap₄ htagHead htagSame hkindHead hkindSame
  refine ⟨_, kind, htext, ?_, rfl⟩
  simpa using hfront.trans hlast

end Atoms

section Nodes

def grammar (R : Readers F D) : Grammar (Atom F D) where
  opening := '['
  closing := ']'
  leaf := Tagged R
  gap first gap := if first then Blank gap else
    ∃ front back, Blank front ∧ Blank back ∧ gap = front ++ ',' :: back
  trail := Blank
  ends _ _ := True

variable (R : Readers F D)

theorem blank_append {a b : Text} (ha : Blank a) (hb : Blank b) : Blank (a ++ b) := by
  intro c hc
  rcases List.mem_append.1 hc with hc | hc
  · exact ha c hc
  · exact hb c hc

/-- The loop reads values behind what stands in front of the first, or refuses a place in
the source. -/
theorem parseElements_within {value : Cursor → Except IrError (Node F D × Cursor)} {levels : ℕ}
    (hvalue : ∀ cur : Cursor, Within (InSource cur.stop) (ReadsForm (grammar R) levels Blank cur)
      (value cur)) {start : ℕ} (fuel : ℕ) {origin cur : Cursor} {front : Text}
    (hstart : start ≤ origin.pos) (hfront : Reads origin front cur) (first : Bool)
    (hgap : ∀ text, Blank text → (grammar R).gap first (front ++ text))
    (before : List (Node F D)) :
    Within (InSource origin.stop) (ReadsItems (grammar R) levels first start origin before)
      (parseElements value start fuel cur before) := by
  induction fuel generalizing origin cur front first before with
  | zero => exact ⟨hstart.trans hfront.le_pos, hfront.pos_le_stop⟩
  | succ fuel ih =>
    have hone := hvalue cur
    rw [parseElements]
    cases hnode : value cur with
    | error e =>
      rw [hnode, hfront.stop_eq] at hone
      exact hone
    | ok r =>
      obtain ⟨node, next⟩ := r
      have hform := (hone.of_ok hnode).behind hfront hgap
      obtain ⟨text, hread⟩ := hform.reads
      obtain ⟨blank, hblank, hskip, -⟩ := skipWs_spec next
      have hreads := hread.trans hskip
      dsimp only at hreads ⊢
      generalize skipWs next = mid at *
      split_ifs with hcomma hclose
      · have hmark := hskip.trans (reads_head hcomma rfl)
        have hlater := ih (hstart.trans hread.le_pos) hmark false (by
          intro text htext
          exact ⟨blank, text, hblank, htext, by simp⟩) (before ++ [node])
        rw [hread.stop_eq] at hlater
        exact hlater.imp fun r hr => hr.cons hform
      · have hmark := hskip.trans (reads_head hclose rfl)
        exact (readsItems_nil hblank hmark).cons hform
      · rw [← hreads.stop_eq]
        exact inSource_min mid.pos_le_stop _ _ _

theorem parseArray_within {value : Cursor → Except IrError (Node F D × Cursor)} {levels : ℕ}
    (hvalue : ∀ cur : Cursor, Within (InSource cur.stop) (ReadsForm (grammar R) levels Blank cur)
      (value cur)) {cur : Cursor} (hopen : cur.rest.head? = some '[') :
    Within (InSource cur.stop) (ReadsForm (grammar R) (levels + 1) (· = []) cur)
      (parseArray value cur) := by
  have hopened := reads_head hopen rfl
  obtain ⟨blank, hblank, hskip, -⟩ := skipWs_spec ⟨cur.pos + 1, cur.rest.tail⟩
  rw [parseArray]
  generalize skipWs ⟨cur.pos + 1, cur.rest.tail⟩ = mid at *
  split_ifs with hclose
  · have hmark := hskip.trans (reads_head hclose rfl)
    have hitems : ReadsItems (grammar R) levels true cur.pos _ [] _ := readsItems_nil hblank hmark
    exact hitems.form hopened fun _ _ _ => trivial
  · have hitems := parseElements_within R hvalue (mid.rest.length + 1) hopened.le_pos hskip true
      (fun text htext => blank_append hblank htext) []
    rw [hopened.stop_eq] at hitems
    exact hitems.imp fun r hr => hr.form hopened fun _ _ _ => trivial

/-- The reader reads a form of the grammar, or refuses a place in the source. -/
theorem parseValue_within (levels : ℕ) (cur : Cursor) :
    Within (InSource cur.stop) (ReadsForm (grammar R) levels Blank cur)
      (parseValue R levels cur) := by
  induction levels generalizing cur with
  | zero => exact inSource_min cur.pos_le_stop _ _ _
  | succ levels ih =>
    obtain ⟨blank, hblank, hskip, -⟩ := skipWs_spec cur
    rw [parseValue]
    generalize skipWs cur = mid at *
    rw [← hskip.stop_eq]
    split
    case h_1 => exact ⟨le_rfl, mid.pos_le_stop⟩
    case h_2 c rest hrest =>
      have hsome : mid.rest.head? = some c := by simp [hrest]
      split_ifs with hopen hobject
      · subst hopen
        have harray := parseArray_within R ih hsome
        exact harray.imp fun r hr => hr.behind_nil hskip hblank
      · subst hobject
        apply (parseTagged_within R hsome).imp
        rintro r ⟨text, kind, htagged, hread, hnode⟩
        have hform : ReadsForm (grammar R) (levels + 1) (· = []) mid r := by
          refine ⟨[], .leaf text kind, rfl, htagged, trivial, hread, ?_⟩
          rw [hnode, hread.pos]
          rfl
        exact hform.behind_nil hskip hblank
      · exact inSource_min mid.pos_le_stop _ _ _

variable {R}

theorem valid_head {levels : ℕ} {form : Form (Atom F D)} (h : form.Valid (grammar R) levels) :
    ∃ c text, form.text (grammar R) = c :: text ∧ isWs c = false ∧ c ≠ ']' := by
  match levels, form with
  | 0, form => exact absurd h (by simp [Form.Valid])
  | levels + 1, .leaf text kind =>
    obtain ⟨hopen, -⟩ := h
    cases text with
    | nil => cases hopen
    | cons c text =>
      cases hopen
      exact ⟨_, text, rfl, by decide, by decide⟩
  | levels + 1, .list items trail => exact ⟨'[', _, rfl, by decide, by decide⟩

theorem skipWs_closing {gap : Text} (hgap : Blank gap) (pos : ℕ) {mark : Char} (rest : Text)
    (hmark : isWs mark = false) :
    skipWs ⟨pos, gap ++ mark :: rest⟩ = ⟨pos + utf8Length gap, mark :: rest⟩ := by
  apply skipWs_append hgap
  intro c hc
  cases hc
  exact hmark

mutual

theorem parseValue_form (form : Form (Atom F D)) {levels : ℕ} (h : form.Valid (grammar R) levels)
    {gap : Text} (hgap : Blank gap) (pos : ℕ) (rest : Text) :
    parseValue R levels ⟨pos, gap ++ (form.text (grammar R) ++ rest)⟩ =
      .ok (form.node (grammar R) (pos + utf8Length gap),
        ⟨pos + utf8Length gap + utf8Length (form.text (grammar R)), rest⟩) := by
  have hopening : (grammar R).opening.utf8Size = 1 := rfl
  have hclosing : (grammar R).closing.utf8Size = 1 := rfl
  match levels, form with
  | 0, form => exact absurd h (by simp [Form.Valid])
  | levels + 1, .leaf text kind =>
    obtain ⟨hopen, hread⟩ := h
    cases text with
    | nil => cases hopen
    | cons c text =>
      cases hopen
      rw [Form.text, List.cons_append, parseValue, skipWs_closing hgap _ _ (by decide)]
      simp only [if_neg (show '\x7b' ≠ '[' by decide), if_pos]
      exact hread _ rest
  | levels + 1, .list items trail =>
    obtain ⟨hitems, htrail⟩ := h
    have htext : Form.text (grammar R) (.list items trail) ++ rest =
        '[' :: (items.text (grammar R) ++ (trail ++ ']' :: rest)) := by
      simp [Form.text, grammar]
    rw [htext, parseValue, skipWs_closing hgap _ _ (by decide)]
    simp only [if_pos]
    rw [parseArray, List.tail_cons]
    cases hcase : items with
    | nil =>
      have hpos : pos + utf8Length gap + 1 + utf8Length trail + 1 =
          pos + utf8Length gap + utf8Length (Form.text (grammar R) (.list .nil trail)) := by
        simp only [Form.text, Items.text, List.nil_append, utf8Length_cons, utf8Length_append,
          utf8Length_nil, hopening, hclosing]
        omega
      rw [Items.text, List.nil_append, skipWs_closing htrail _ _ (by decide)]
      simp only [List.head?_cons, if_pos, List.tail_cons]
      rw [hpos]
      rfl
    | cons front form later =>
      rw [hcase] at hitems
      obtain ⟨hfront, hform, -, hlater⟩ := hitems
      obtain ⟨c, text, hhead, hws, hclose⟩ := valid_head hform
      have hblank : Blank [] := by simp [Blank]
      have hmark : ']'.utf8Size = 1 := rfl
      have hloop := parseElements_items items hcase hform hlater htrail hblank
        (pos + utf8Length gap) (pos + utf8Length gap + 1 + utf8Length front) rest []
        (Nat.lt_succ_self _)
      have hpos : pos + utf8Length gap + 1 + utf8Length front +
            utf8Length ([] ++ (form.text (grammar R) ++ (later.text (grammar R) ++
              (trail ++ [']'])))) =
          pos + utf8Length gap +
            utf8Length (Form.text (grammar R) (.list (.cons front form later) trail)) := by
        simp only [Form.text, Items.text, List.nil_append, utf8Length_cons, utf8Length_append,
          utf8Length_nil, hopening, hclosing, hmark]
        omega
      have hskip := skipWs_closing hfront (pos + utf8Length gap + 1)
        (text ++ (later.text (grammar R) ++ (trail ++ ']' :: rest))) hws
      rw [hpos] at hloop
      simp only [List.nil_append, utf8Length_nil, Nat.add_zero] at hloop
      simp only [Items.text, List.append_assoc]
      rw [hhead, List.cons_append, hskip]
      rw [hhead, List.cons_append] at hloop
      simp only [List.head?_cons, Option.some.injEq, if_neg hclose]
      rw [hloop]
      simp only [Form.node, Items.nodes, hhead, hopening]

theorem parseElements_items (items : Items (Atom F D)) {levels : ℕ} {trail : Text}
    {gap : Text} {form : Form (Atom F D)} {later : Items (Atom F D)}
    (hitems : items = .cons gap form later) (hform : form.Valid (grammar R) levels)
    (hlater : later.Valid (grammar R) levels false (trail ++ [']'])) (htrail : Blank trail)
    {front : Text} (hfront : Blank front) (start pos : ℕ) (rest : Text) {fuel : ℕ}
    (before : List (Node F D)) (hfuel : (front ++ (form.text (grammar R) ++
      (later.text (grammar R) ++ (trail ++ ']' :: rest)))).length < fuel) :
    parseElements (parseValue R levels) start fuel ⟨pos, front ++ (form.text (grammar R) ++
        (later.text (grammar R) ++ (trail ++ ']' :: rest)))⟩ before =
      .ok (.list (before ++ form.node (grammar R) (pos + utf8Length front) ::
          later.nodes (grammar R)
            (pos + utf8Length front + utf8Length (form.text (grammar R))))
        ⟨start, pos + utf8Length (front ++ (form.text (grammar R) ++
          (later.text (grammar R) ++ (trail ++ [']']))))⟩,
        ⟨pos + utf8Length (front ++ (form.text (grammar R) ++
          (later.text (grammar R) ++ (trail ++ [']'])))), rest⟩) := by
  obtain ⟨fuel, rfl⟩ : ∃ k, fuel = k + 1 := Nat.exists_eq_succ_of_ne_zero (by omega)
  match items, hitems with
  | .cons gap form later, rfl =>
    have hmark : ']'.utf8Size = 1 := rfl
    have hcomma : ','.utf8Size = 1 := rfl
    have hone := parseValue_form form hform hfront pos
      (later.text (grammar R) ++ (trail ++ ']' :: rest))
    rw [parseElements, hone]
    dsimp only
    cases hcase : later with
    | nil =>
      have hpos : pos + utf8Length front + utf8Length (form.text (grammar R)) +
            utf8Length trail + 1 =
          pos + utf8Length (front ++ (form.text (grammar R) ++
            (Items.text (grammar R) .nil ++ (trail ++ [']'])))) := by
        simp only [Items.text, List.nil_append, utf8Length_cons, utf8Length_append,
          utf8Length_nil, hmark]
        omega
      rw [← hpos, Items.text, List.nil_append, skipWs_closing htrail _ _ (by decide)]
      simp only [List.head?_cons, Option.some.injEq, if_neg (show ']' ≠ ',' by decide), if_pos,
        List.tail_cons, Items.nodes]
    | cons gap' form' later' =>
      rw [hcase] at hlater hfuel
      obtain ⟨⟨blank, back, hblank, hback, rfl⟩, hform', -, hlater'⟩ := hlater
      have hlength : (back ++ (form'.text (grammar R) ++ (later'.text (grammar R) ++
          (trail ++ ']' :: rest)))).length < fuel := by
        simp only [Items.text, List.length_append, List.length_cons] at hfuel ⊢
        omega
      have hloop := parseElements_items later hcase hform' hlater' htrail hback start
        (pos + utf8Length front + utf8Length (form.text (grammar R)) + utf8Length blank + 1) rest
        (before ++ [form.node (grammar R) (pos + utf8Length front)]) hlength
      have hpos : pos + utf8Length front + utf8Length (form.text (grammar R)) +
            utf8Length blank + 1 + utf8Length (back ++ (form'.text (grammar R) ++
              (later'.text (grammar R) ++ (trail ++ [']'])))) =
          pos + utf8Length (front ++ (form.text (grammar R) ++
            (Items.text (grammar R) (.cons (blank ++ ',' :: back) form' later') ++
              (trail ++ [']'])))) := by
        simp only [Items.text, utf8Length_cons, utf8Length_append, hcomma]
        omega
      have hnode : pos + utf8Length front + utf8Length (form.text (grammar R)) +
            utf8Length blank + 1 + utf8Length back =
          pos + utf8Length front + utf8Length (form.text (grammar R)) +
            utf8Length (blank ++ ',' :: back) := by
        simp only [utf8Length_cons, utf8Length_append, hcomma]
        omega
      rw [hpos, hnode] at hloop
      simp only [Items.text, List.append_assoc, List.cons_append] at hloop ⊢
      rw [skipWs_closing hblank _ _ (by decide)]
      simp only [List.head?_cons, if_pos, List.tail_cons]
      rw [hloop]
      simp only [Items.nodes, List.nil_append]

end

end Nodes

end FrankenSim.Ir.Json
