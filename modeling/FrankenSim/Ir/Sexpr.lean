import FrankenSim.Ir.Forms
import FrankenSim.Library.Refusals

/-!
# The reader of s-expressions

Whitespace and comments may stand in front of every form. A form is a list in
parentheses, a string or an atom that a delimiter ends. The reader refuses what is
nested too deep, and everything behind the one form of a program.
-/
namespace FrankenSim.Ir.Sexpr

open Library

variable {F D : Type}

/-- The trivia from here on; in a comment, up to the end of the line. -/
def skipFrom : Bool → ℕ → Text → Cursor
  | _, pos, [] => ⟨pos, []⟩
  | true, pos, c :: rest => skipFrom (c != '\n') (pos + c.utf8Size) rest
  | false, pos, c :: rest =>
    if c = ' ' ∨ c = '\t' ∨ c = '\r' ∨ c = '\n' then skipFrom false (pos + c.utf8Size) rest
    else if c = ';' then skipFrom true (pos + c.utf8Size) rest
    else ⟨pos, c :: rest⟩

def skipTrivia (cur : Cursor) : Cursor := skipFrom false cur.pos cur.rest

def escape : Char → Option Char
  | '"' => some '"'
  | '\\' => some '\\'
  | 'n' => some '\n'
  | 't' => some '\t'
  | _ => none

/-- The scalars of a string up to its closing quote. -/
def readString (start pos : ℕ) (rest out : Text) : Except IrError (Node F D × Cursor) :=
  match rest with
  | [] => .error ⟨⟨start, pos⟩, .unclosedString, "string literal is never closed",
      "add the closing '\"'"⟩
  | c :: later =>
    if c = '"' then .ok (.atom (.str out) ⟨start, pos + 1⟩, ⟨pos + 1, later⟩)
    else if c = '\\' then
      match later.head?.bind escape with
      | some e => readString start (pos + 2) later.tail (out ++ [e])
      | none => .error ⟨⟨pos, min (pos + 2) (pos + utf8Length rest)⟩, .badEscape,
          "unknown escape sequence", "supported escapes: \\\" \\\\ \\n \\t"⟩
    else readString start (pos + c.utf8Size) later (out ++ [c])
termination_by rest.length
decreasing_by
  · simp only [List.length_cons, List.length_tail]
    omega
  · simp

def parseString (cur : Cursor) : Except IrError (Node F D × Cursor) :=
  readString cur.pos (cur.pos + 1) cur.rest.tail []

/-- An atom ends in front of the next delimiter. -/
def parseAtom (R : Readers F D) (cur : Cursor) : Except IrError (Node F D × Cursor) := do
  let text := cur.rest.takeWhile fun c => !isAtomDelimiter c
  let node ← classifyAtom R text ⟨cur.pos, cur.pos + utf8Length text⟩
  return (node, ⟨cur.pos + utf8Length text, cur.rest.dropWhile fun c => !isAtomDelimiter c⟩)

def tooDeep (span : Span) : IrError :=
  ⟨span, .tooDeep, "nesting exceeds the " ++ toString MAX_DEPTH ++ "-level cap",
    "flatten the program; adversarial nesting is refused by design"⟩

/-- The loop over the items of a list that starts at `start`, whose items may be nested
`levels` deep. The fuel is more than the scalars that are left. -/
def parseItems (item : Cursor → Except IrError (Node F D × Cursor)) (levels start : ℕ) :
    ℕ → Cursor → List (Node F D) → Except IrError (Node F D × Cursor)
  | 0, cur, _ => .error (tooDeep ⟨start, cur.pos⟩)
  | fuel + 1, cur, items =>
    let cur := skipTrivia cur
    match cur.rest with
    | [] =>
      if levels = 0 then .error (tooDeep ⟨cur.pos, cur.pos⟩)
      else .error ⟨⟨start, cur.pos⟩, .unclosedParen, "this form is never closed",
        "add the matching ')'"⟩
    | c :: rest =>
      if c = ')' then .ok (.list items ⟨start, cur.pos + 1⟩, ⟨cur.pos + 1, rest⟩)
      else
        match item cur with
        | .error e => .error e
        | .ok (node, next) => parseItems item levels start fuel next (items ++ [node])

/-- The form at a cursor, which may be nested so many levels deep. -/
def parseNode (R : Readers F D) : ℕ → Cursor → Except IrError (Node F D × Cursor)
  | 0, cur => .error (tooDeep ⟨cur.pos, min (cur.pos + 1) cur.stop⟩)
  | levels + 1, cur =>
    let cur := skipTrivia cur
    match cur.rest with
    | [] => .error ⟨⟨cur.pos, cur.pos⟩, .unexpectedEnd,
        "expected a form or atom, found end of input",
        "supply a complete s-expression, e.g. (study \"name\" ...)"⟩
    | c :: rest =>
      if c = '(' then
        parseItems (parseNode R levels) levels cur.pos (rest.length + 1) ⟨cur.pos + 1, rest⟩ []
      else if c = ')' then
        .error ⟨⟨cur.pos, cur.pos + 1⟩, .unexpectedChar, "unmatched closing paren",
          "remove it or open a matching '(' earlier"⟩
      else if c = '"' then parseString cur
      else parseAtom R cur

def parse [DecidableEq D] (K : Codec F D) (src : Text) : Except IrError (Node F D) := do
  let (node, next) ← parseNode K.toReaders (MAX_DEPTH + 1) (skipTrivia ⟨0, src⟩)
  let last := skipTrivia next
  if last.rest ≠ [] then
    .error ⟨⟨last.pos, last.stop⟩, .trailingInput, "input continues after the top-level form",
      "a program is exactly one form; wrap multiple forms in (study ...)"⟩
  else
    node.validate K
    return node

section Trivia

/-- What stands behind trivia: the end of the text, or the start of a form. -/
def Settled (rest : Text) : Prop :=
  ∀ c ∈ rest.head?, ¬ (c = ' ' ∨ c = '\t' ∨ c = '\r' ∨ c = '\n') ∧ c ≠ ';'

/-- Whitespace and comments that end. -/
def Trivia (gap : Text) : Prop :=
  ∀ pos rest, Settled rest → skipTrivia ⟨pos, gap ++ rest⟩ = ⟨pos + utf8Length gap, rest⟩

theorem skipFrom_settled {rest : Text} (h : Settled rest) (pos : ℕ) :
    skipFrom false pos rest = ⟨pos, rest⟩ := by
  cases rest with
  | nil => rfl
  | cons c rest =>
    obtain ⟨hspace, hcomment⟩ := h c rfl
    rw [skipFrom, if_neg hspace, if_neg hcomment]

theorem skipTrivia_settled {cur : Cursor} (h : Settled cur.rest) : skipTrivia cur = cur :=
  skipFrom_settled h cur.pos

/-- The skipped text is the same trivia wherever it stands, unless a comment in it is open. -/
theorem skipFrom_spec (comment : Bool) (pos : ℕ) (text : Text) :
    ∃ gap, Reads ⟨pos, text⟩ gap (skipFrom comment pos text) ∧
      Settled (skipFrom comment pos text).rest ∧
      ((skipFrom comment pos text).rest ≠ [] → ∀ pos' rest, Settled rest →
        skipFrom comment pos' (gap ++ rest) = ⟨pos' + utf8Length gap, rest⟩) := by
  have hstep : ∀ {comment comment' : Bool} {pos : ℕ} {c : Char} {text : Text},
      (∀ pos' rest, skipFrom comment pos' (c :: rest) =
        skipFrom comment' (pos' + c.utf8Size) rest) →
      (∃ gap, Reads ⟨pos + c.utf8Size, text⟩ gap (skipFrom comment' (pos + c.utf8Size) text) ∧
        Settled (skipFrom comment' (pos + c.utf8Size) text).rest ∧
        ((skipFrom comment' (pos + c.utf8Size) text).rest ≠ [] → ∀ pos' rest, Settled rest →
          skipFrom comment' pos' (gap ++ rest) = ⟨pos' + utf8Length gap, rest⟩)) →
      ∃ gap, Reads ⟨pos, c :: text⟩ gap (skipFrom comment pos (c :: text)) ∧
        Settled (skipFrom comment pos (c :: text)).rest ∧
        ((skipFrom comment pos (c :: text)).rest ≠ [] → ∀ pos' rest, Settled rest →
          skipFrom comment pos' (gap ++ rest) = ⟨pos' + utf8Length gap, rest⟩) := by
    intro comment comment' pos c text hskip ⟨gap, hreads, hsettled, hsame⟩
    rw [hskip]
    refine ⟨c :: gap, ⟨congrArg (c :: ·) hreads.rest, ?_⟩, hsettled, ?_⟩
    · rw [hreads.pos, utf8Length_cons, Nat.add_assoc]
    · intro hne pos' rest hrest
      rw [List.cons_append, hskip, hsame hne _ _ hrest, utf8Length_cons, Nat.add_assoc]
  induction text generalizing comment pos with
  | nil =>
    rw [skipFrom]
    exact ⟨[], Reads.refl _, by simp [Settled], fun hne => absurd rfl hne⟩
  | cons c text ih =>
    cases comment with
    | true => exact hstep (fun _ _ => rfl) (ih _ _)
    | false =>
      by_cases hspace : c = ' ' ∨ c = '\t' ∨ c = '\r' ∨ c = '\n'
      · exact hstep (fun _ _ => by rw [skipFrom, if_pos hspace]) (ih _ _)
      · by_cases hcomment : c = ';'
        · exact hstep (fun _ _ => by rw [skipFrom, if_neg hspace, if_pos hcomment]) (ih _ _)
        · have hsettled : Settled (c :: text) := by
            intro x hx
            cases hx
            exact ⟨hspace, hcomment⟩
          rw [skipFrom_settled hsettled]
          refine ⟨[], Reads.refl _, hsettled, fun _ pos' rest hrest => ?_⟩
          exact skipFrom_settled hrest pos'

theorem skipTrivia_spec (cur : Cursor) :
    ∃ gap, Reads cur gap (skipTrivia cur) ∧ Settled (skipTrivia cur).rest ∧
      ((skipTrivia cur).rest ≠ [] → Trivia gap) :=
  skipFrom_spec false cur.pos cur.rest

end Trivia

section Leaves

/-- A string was read, and is read the same wherever it stands. -/
def SameString (start pos : ℕ) (rest out : Text) (r : Node F D × Cursor) : Prop :=
  ∃ text value, Reads ⟨pos, rest⟩ text r.2 ∧ r.1 = .atom (.str value) ⟨start, r.2.pos⟩ ∧
    ∀ start' pos' rest', readString start' pos' (text ++ rest') out =
      .ok ((.atom (.str value) ⟨start', pos' + utf8Length text⟩ : Node F D),
        ⟨pos' + utf8Length text, rest'⟩)

/-- Scalars in front of a string that add to what was read before. -/
theorem SameString.front {start pos : ℕ} {front rest out out' : Text} {r : Node F D × Cursor}
    (hfront : ∀ start' pos' rest', readString start' pos' (front ++ rest') out =
      (readString start' (pos' + utf8Length front) rest' out' :
        Except IrError (Node F D × Cursor)))
    (h : SameString start (pos + utf8Length front) rest out' r) :
    SameString start pos (front ++ rest) out r := by
  obtain ⟨text, value, hreads, hnode, hsame⟩ := h
  refine ⟨front ++ text, value, ?_, hnode, fun start' pos' rest' => ?_⟩
  · exact Reads.trans ⟨rfl, rfl⟩ hreads
  · rw [List.append_assoc, hfront, hsame, utf8Length_append, Nat.add_assoc]

theorem utf8Size_escape {c e : Char} (h : escape c = some e) : c.utf8Size = 1 := by
  unfold escape at h
  split at h
  case h_5 => cases h
  all_goals rfl

/-- A string is the same wherever it stands. -/
theorem readString_within {start pos : ℕ} (hle : start ≤ pos) (rest out : Text) :
    Within (InSource (pos + utf8Length rest)) (SameString start pos rest out)
      (readString start pos rest out : Except IrError (Node F D × Cursor)) := by
  induction hlength : rest.length using Nat.strong_induction_on generalizing pos rest out with
  | _ length ih =>
    cases rest with
    | nil =>
      rw [readString]
      exact ⟨hle, Nat.le_add_right _ _⟩
    | cons c later =>
      rw [readString]
      by_cases hquote : c = '"'
      · rw [if_pos hquote]
        subst hquote
        refine ⟨['"'], out, ⟨rfl, rfl⟩, rfl, fun start' pos' rest' => ?_⟩
        rw [List.singleton_append, readString, if_pos rfl]
        rfl
      · rw [if_neg hquote]
        by_cases hescape : c = '\\'
        · rw [if_pos hescape]
          subst hescape
          cases heq : later.head?.bind escape with
          | none => exact ⟨Nat.le_min.2 ⟨Nat.le_add_right _ _, Nat.le_add_right _ _⟩,
              Nat.min_le_right _ _⟩
          | some e =>
            obtain ⟨c, later, rfl⟩ : ∃ c rest, later = c :: rest := by
              cases later with
              | nil => cases heq
              | cons c rest => exact ⟨c, rest, rfl⟩
            have hsize := utf8Size_escape heq
            have hfront : utf8Length ['\\', c] = 2 := by
              rw [utf8Length_cons, utf8Length_cons, hsize]
              rfl
            have hpos : start ≤ pos + 2 := by omega
            have hlater := ih later.length (by simp at hlength; omega) hpos later (out ++ [e]) rfl
            have hstop : pos + 2 + utf8Length later = pos + utf8Length ('\\' :: c :: later) := by
              rw [← hfront, Nat.add_assoc, ← utf8Length_append]
              rfl
            rw [hstop] at hlater
            apply hlater.imp
            intro r hr
            rw [← hfront] at hr
            apply hr.front
            intro start' pos' rest'
            rw [hfront, List.cons_append, readString, if_neg (by decide), if_pos rfl]
            simp only [List.singleton_append, List.head?_cons, List.tail_cons]
            rw [show (some c).bind escape = some e from heq]
        · rw [if_neg hescape]
          have hpos : start ≤ pos + c.utf8Size := by omega
          have hlater := ih later.length (by simp at hlength; omega) hpos later (out ++ [c]) rfl
          rw [Nat.add_assoc] at hlater
          apply hlater.imp
          intro r hr
          have hr : SameString start (pos + utf8Length [c]) later (out ++ [c]) r := hr
          apply hr.front
          intro start' pos' rest'
          rw [List.singleton_append, readString, if_neg hquote, if_neg hescape]
          rfl

/-- The text behind an atom ends it; a string ends by itself. -/
def Ended (text : Text) (next : Option Char) : Prop :=
  text.head? = some '"' ∨ ∀ c ∈ next, isAtomDelimiter c = true

/-- A string or an atom. -/
def parseLeaf (R : Readers F D) (cur : Cursor) : Except IrError (Node F D × Cursor) :=
  if cur.rest.head? = some '"' then parseString cur else parseAtom R cur

/-- The text of a string or an atom, which means the same wherever it stands. -/
def Leaf (R : Readers F D) (text : Text) (kind : Atom F D) : Prop :=
  (∃ c ∈ text.head?, Settled text ∧ c ≠ '(' ∧ c ≠ ')') ∧
    ∀ pos rest, Ended text rest.head? → parseLeaf R ⟨pos, text ++ rest⟩ =
      .ok (.atom kind ⟨pos, pos + utf8Length text⟩, ⟨pos + utf8Length text, rest⟩)

/-- A leaf was read up to its end. -/
def ReadsLeaf (R : Readers F D) (cur : Cursor) (r : Node F D × Cursor) : Prop :=
  ∃ text kind, Leaf R text kind ∧ Reads cur text r.2 ∧ Ended text r.2.rest.head? ∧
    r.1 = .atom kind ⟨cur.pos, r.2.pos⟩

theorem parseString_within (R : Readers F D) {cur : Cursor} (hquote : cur.rest.head? = some '"') :
    Within (InSource cur.stop) (ReadsLeaf R cur) (parseString cur) := by
  obtain ⟨pos, rest⟩ := cur
  obtain ⟨later, rfl⟩ : ∃ later, rest = '"' :: later := by
    cases rest with
    | nil => cases hquote
    | cons c later =>
      cases hquote
      exact ⟨later, rfl⟩
  have hread := @readString_within F D pos (pos + 1) (Nat.le_succ pos) later []
  have hstop : pos + 1 + utf8Length later = pos + utf8Length ('"' :: later) := by
    rw [Nat.add_assoc]
    rfl
  rw [hstop] at hread
  apply hread.imp
  intro r ⟨text, value, hreads, hnode, hsame⟩
  refine ⟨'"' :: text, .str value, ⟨?_, ?_⟩, ?_, Or.inl rfl, hnode⟩
  · exact ⟨'"', rfl, by simp [Settled], by decide, by decide⟩
  · intro pos' rest' _
    rw [parseLeaf, if_pos (by rfl), parseString, List.cons_append, List.tail_cons, hsame,
      utf8Length_cons, ← Nat.add_assoc]
    rfl
  · refine ⟨congrArg ('"' :: ·) hreads.rest, ?_⟩
    rw [hreads.pos, utf8Length_cons, ← Nat.add_assoc]
    rfl

theorem parseAtom_within (R : Readers F D) {cur : Cursor} {c : Char} (hsome : c ∈ cur.rest.head?)
    (hsettled : Settled cur.rest) (hopen : c ≠ '(') (hclose : c ≠ ')') (hquote : c ≠ '"') :
    Within (InSource cur.stop) (ReadsLeaf R cur) (parseAtom R cur) := by
  have hparts := @List.takeWhile_append_dropWhile _ (fun c => !isAtomDelimiter c) cur.rest
  have hread : Reads cur (cur.rest.takeWhile fun c => !isAtomDelimiter c)
      ⟨cur.pos + utf8Length (cur.rest.takeWhile fun c => !isAtomDelimiter c),
        cur.rest.dropWhile fun c => !isAtomDelimiter c⟩ := ⟨hparts.symm, rfl⟩
  have hended : ∀ x ∈ (cur.rest.dropWhile fun c => !isAtomDelimiter c).head?,
      isAtomDelimiter x = true := by
    intro x hx
    have := List.head?_dropWhile_not (fun c => !isAtomDelimiter c) cur.rest
    rw [hx] at this
    simpa using this
  have hall : ∀ x ∈ cur.rest.takeWhile fun c => !isAtomDelimiter c,
      (!isAtomDelimiter x) = true := fun x hx => List.all_eq_true.1 List.all_takeWhile x hx
  rw [parseAtom]
  generalize cur.rest.takeWhile (fun c => !isAtomDelimiter c) = text at *
  generalize cur.rest.dropWhile (fun c => !isAtomDelimiter c) = rest at *
  have hlocated := classifyAtom_located R text
  cases hclass : classifyAtom R text ⟨cur.pos, cur.pos + utf8Length text⟩ with
  | error e =>
    simp only [bind, Except.bind]
    rw [Within, InSource, hlocated.refused _ _ hclass]
    exact ⟨Nat.le_add_right _ _, hread.pos_le_stop⟩
  | ok node =>
    simp only [bind, Except.bind]
    obtain ⟨kind, rfl, hsame⟩ := hlocated.same _ _ hclass
    obtain ⟨text, rfl⟩ : ∃ later, text = c :: later := by
      cases text with
      | nil => cases hclass
      | cons x later =>
        rw [hread.rest] at hsome
        cases hsome
        exact ⟨later, rfl⟩
    refine ⟨c :: text, kind, ⟨⟨c, rfl, ?_, hopen, hclose⟩, ?_⟩, hread, Or.inr hended, rfl⟩
    · intro x hx
      cases hx
      exact hsettled c hsome
    · intro pos rest' hrest
      have hends : ∀ x ∈ rest'.head?, (!isAtomDelimiter x) = false := by
        intro x hx
        rcases hrest with hrest | hrest
        · exact absurd (Option.some.inj hrest) hquote
        · simp [hrest x hx]
      have hends := takeWhile_ended hall hends
      rw [parseLeaf, if_neg (by simp [hquote]), parseAtom]
      simp only [hends.1, hends.2, hsame, bind, Except.bind, pure, Except.pure]

end Leaves

section Nodes

def grammar (R : Readers F D) : Grammar (Atom F D) where
  opening := '('
  closing := ')'
  leaf := Leaf R
  gap _ := Trivia
  trail := Trivia
  ends
    | .leaf text _, next => Ended text next
    | .list _ _, _ => True

variable (R : Readers F D)

theorem ReadsLeaf.form {R : Readers F D} {cur : Cursor} {r : Node F D × Cursor}
    (h : ReadsLeaf R cur r) (levels : ℕ) : ReadsForm (grammar R) (levels + 1) (· = []) cur r := by
  obtain ⟨text, kind, hleaf, hreads, hended, hnode⟩ := h
  refine ⟨[], .leaf text kind, rfl, hleaf, hended, hreads, ?_⟩
  rw [hnode, hreads.pos]
  rfl

theorem tooDeep_inSource {stop : ℕ} {span : Span} (h : span.start ≤ span.stop)
    (h' : span.stop ≤ stop) : InSource stop (tooDeep span) := ⟨h, h'⟩

/-- The loop reads items of the grammar, or refuses a place in the source. -/
theorem parseItems_within {item : Cursor → Except IrError (Node F D × Cursor)} {levels : ℕ}
    (hitem : ∀ cur : Cursor, Settled cur.rest → cur.rest ≠ [] →
      Within (InSource cur.stop) (ReadsForm (grammar R) levels (· = []) cur) (item cur))
    {start : ℕ} (fuel : ℕ) {cur : Cursor} (hstart : start ≤ cur.pos) (first : Bool)
    (before : List (Node F D)) :
    Within (InSource cur.stop) (ReadsItems (grammar R) levels first start cur before)
      (parseItems item levels start fuel cur before) := by
  induction fuel generalizing cur first before with
  | zero => exact tooDeep_inSource hstart cur.pos_le_stop
  | succ fuel ih =>
    obtain ⟨gap, hgap, hsettled, htrivia⟩ := skipTrivia_spec cur
    rw [parseItems]
    generalize skipTrivia cur = mid at *
    split
    case h_1 hnil =>
      split
      · exact tooDeep_inSource le_rfl hgap.pos_le_stop
      · exact ⟨hstart.trans hgap.le_pos, hgap.pos_le_stop⟩
    case h_2 c rest hrest =>
      have hsome : mid.rest ≠ [] := by simp [hrest]
      split
      case isTrue hclose =>
        subst hclose
        have hread : Reads cur (gap ++ [')']) ⟨mid.pos + 1, rest⟩ := hgap.trans ⟨hrest, rfl⟩
        exact readsItems_nil (htrivia hsome) hread
      case isFalse hclose =>
        have hone := hitem mid hsettled hsome
        cases hnode : item mid with
        | error e =>
          rw [hnode, hgap.stop_eq] at hone
          exact hone
        | ok r =>
          obtain ⟨node, next⟩ := r
          have hform := (hone.of_ok hnode).behind_nil hgap (htrivia hsome)
          obtain ⟨text, hread⟩ := hform.reads
          have hlater := ih (hstart.trans hread.le_pos) false (before ++ [node])
          rw [hread.stop_eq] at hlater
          exact hlater.imp fun r hr => hr.cons hform

/-- The reader reads a form of the grammar, or refuses a place in the source. -/
theorem parseNode_within (levels : ℕ) {cur : Cursor} (hsettled : Settled cur.rest) :
    Within (InSource cur.stop) (ReadsForm (grammar R) levels (· = []) cur)
      (parseNode R levels cur) := by
  induction levels generalizing cur with
  | zero =>
    rw [parseNode]
    exact tooDeep_inSource (Nat.le_min.2 ⟨Nat.le_succ _, cur.pos_le_stop⟩) (Nat.min_le_right _ _)
  | succ levels ih =>
    rw [parseNode, skipTrivia_settled hsettled]
    split
    case h_1 => exact ⟨le_rfl, cur.pos_le_stop⟩
    case h_2 c rest hrest =>
      have hopened : Reads cur [c] ⟨cur.pos + c.utf8Size, rest⟩ := ⟨hrest, rfl⟩
      have hsome : c ∈ cur.rest.head? := by simp [hrest]
      split_ifs with hopen hclose hquote
      · subst hopen
        have hitems := parseItems_within R (fun cur hsettled _ => ih hsettled) (rest.length + 1)
          hopened.le_pos true []
        rw [hopened.stop_eq] at hitems
        exact hitems.imp fun r hr => hr.form hopened fun _ _ _ => trivial
      · subst hclose
        exact ⟨Nat.le_succ _, hopened.pos_le_stop⟩
      · subst hquote
        exact (parseString_within R hsome).imp fun r hr => hr.form levels
      · have hatom := parseAtom_within R hsome hsettled hopen hclose hquote
        exact hatom.imp fun r hr => hr.form levels

variable {R}

/-- A form starts with a scalar of its own. -/
theorem valid_head {levels : ℕ} {form : Form (Atom F D)} (h : form.Valid (grammar R) levels) :
    ∃ c text, form.text (grammar R) = c :: text ∧ c ≠ ')' ∧
      ∀ rest, Settled (c :: text ++ rest) := by
  match levels, form with
  | 0, form => exact absurd h (by simp [Form.Valid])
  | levels + 1, .leaf text kind =>
    obtain ⟨⟨c, hc, hsettled, -, hclose⟩, -⟩ := h
    cases text with
    | nil => cases hc
    | cons x text =>
      cases hc
      refine ⟨c, text, rfl, hclose, fun rest x hx => ?_⟩
      cases hx
      exact hsettled c rfl
  | levels + 1, .list items trail =>
    refine ⟨'(', _, rfl, by decide, fun rest x hx => ?_⟩
    cases hx
    decide

theorem parseNode_leaf {levels : ℕ} {cur : Cursor} {c : Char} (hsome : c ∈ cur.rest.head?)
    (hsettled : Settled cur.rest) (hopen : c ≠ '(') (hclose : c ≠ ')') :
    parseNode R (levels + 1) cur = parseLeaf R cur := by
  obtain ⟨pos, rest⟩ := cur
  rw [parseNode, skipTrivia_settled hsettled]
  cases rest with
  | nil => cases hsome
  | cons x rest =>
    cases hsome
    simp [parseLeaf, hopen, hclose]

mutual

theorem parseNode_form (form : Form (Atom F D)) {levels : ℕ} (h : form.Valid (grammar R) levels)
    (pos : ℕ) {rest : Text} (hends : (grammar R).ends form rest.head?) :
    parseNode R levels ⟨pos, form.text (grammar R) ++ rest⟩ =
      .ok (form.node (grammar R) pos, ⟨pos + utf8Length (form.text (grammar R)), rest⟩) := by
  match levels, form with
  | 0, form => exact absurd h (by simp [Form.Valid])
  | levels + 1, .leaf text kind =>
    obtain ⟨⟨c, hc, hsettled, hopen, hclose⟩, hsame⟩ := h
    have hread := hsame pos rest hends
    have hhead : c ∈ (text ++ rest).head? := by
      rw [List.head?_append, hc]
      rfl
    have hsettled : Settled (text ++ rest) := by
      intro x hx
      rw [hhead] at hx
      cases hx
      exact hsettled c hc
    rw [Form.text, parseNode_leaf hhead hsettled hopen hclose, hread]
    rfl
  | levels + 1, .list items trail =>
    obtain ⟨hitems, htrail⟩ := h
    have hloop := parseItems_items items hitems htrail pos (pos + 1) rest [] (Nat.lt_succ_self _)
    have hsettled : Settled ('(' :: (items.text (grammar R) ++ (trail ++ ')' :: rest))) := by
      intro x hx
      cases hx
      decide
    have htext : Form.text (grammar R) (.list items trail) ++ rest =
        '(' :: (items.text (grammar R) ++ (trail ++ ')' :: rest)) := by
      simp [Form.text, grammar]
    have hpos : pos + 1 + utf8Length (items.text (grammar R) ++ (trail ++ [')'])) =
        pos + utf8Length (Form.text (grammar R) (.list items trail)) := by
      rw [Nat.add_assoc]
      rfl
    rw [htext, parseNode, skipTrivia_settled hsettled]
    simp only [if_pos]
    rw [hloop, hpos]
    rfl

theorem parseItems_items (items : Items (Atom F D)) {levels : ℕ} {first : Bool} {trail : Text}
    (h : items.Valid (grammar R) levels first (trail ++ [')'])) (htrail : Trivia trail)
    (start pos : ℕ) (rest : Text) {fuel : ℕ} (before : List (Node F D))
    (hfuel : (items.text (grammar R) ++ (trail ++ ')' :: rest)).length < fuel) :
    parseItems (parseNode R levels) levels start fuel
        ⟨pos, items.text (grammar R) ++ (trail ++ ')' :: rest)⟩ before =
      .ok (.list (before ++ items.nodes (grammar R) pos)
          ⟨start, pos + utf8Length (items.text (grammar R) ++ (trail ++ [')']))⟩,
        ⟨pos + utf8Length (items.text (grammar R) ++ (trail ++ [')'])), rest⟩) := by
  obtain ⟨fuel, rfl⟩ : ∃ k, fuel = k + 1 := Nat.exists_eq_succ_of_ne_zero (by omega)
  match items with
  | .nil =>
    have hskip := htrail pos (')' :: rest) (by simp [Settled])
    have hpos : pos + utf8Length trail + 1 = pos + utf8Length (trail ++ [')']) := by
      rw [utf8Length_append, ← Nat.add_assoc]
      rfl
    simp only [Items.text, Items.nodes, List.nil_append, List.append_nil]
    rw [parseItems, hskip]
    simp only [if_pos]
    rw [hpos]
  | .cons gap form items =>
    obtain ⟨hgap, hform, hends, hitems⟩ := h
    obtain ⟨c, text, htext, hclose, hsettled⟩ := valid_head hform
    have hskip := hgap pos (form.text (grammar R) ++ (items.text (grammar R) ++
      (trail ++ ')' :: rest))) (by
        rw [htext]
        exact hsettled _)
    have hnext : (items.text (grammar R) ++ (trail ++ [')'])).head? =
        (items.text (grammar R) ++ (trail ++ ')' :: rest)).head? := by
      rw [← List.append_assoc, ← List.append_assoc]
      exact head?_append_cons _ _ _ _
    rw [hnext] at hends
    have hone := parseNode_form form hform (pos + utf8Length gap) hends
    simp only [Items.text, List.append_assoc, List.length_append, htext, List.length_cons] at hfuel
    have hlength : (items.text (grammar R) ++ (trail ++ ')' :: rest)).length < fuel := by
      simp only [List.length_append, List.length_cons]
      omega
    have hlater := parseItems_items items hitems htrail start
      (pos + utf8Length gap + utf8Length (form.text (grammar R))) rest
      (before ++ [form.node (grammar R) (pos + utf8Length gap)]) hlength
    have hpos : pos + utf8Length gap + utf8Length (form.text (grammar R)) +
          utf8Length (items.text (grammar R) ++ (trail ++ [')'])) =
        pos + utf8Length (Items.text (grammar R) (.cons gap form items) ++ (trail ++ [')'])) := by
      simp only [Items.text, utf8Length_append]
      omega
    have hcons : Items.text (grammar R) (.cons gap form items) ++ (trail ++ ')' :: rest) =
        gap ++ (form.text (grammar R) ++ (items.text (grammar R) ++ (trail ++ ')' :: rest))) := by
      simp only [Items.text, List.append_assoc]
    rw [hcons, parseItems, hskip, ← hpos]
    rw [htext] at hone hlater ⊢
    simp only [List.cons_append] at hone hlater ⊢
    rw [if_neg hclose, hone]
    dsimp only
    rw [hlater]
    simp only [Items.nodes, htext, List.append_assoc, List.cons_append, List.nil_append]

end

end Nodes

end FrankenSim.Ir.Sexpr
