import FrankenSim.Ir.RoundTrip

/-!
# Programs of either syntax

What a reader accepts is a valid tree of values of the source's types. Every accepted program
can therefore be printed in both syntaxes, and each of the two texts stands for it.
-/
namespace FrankenSim.Ir

open Library

variable {F D : Type}

section Classified

theorem stripZeros_range {s s' : ℕ} {e e' : ℤ} (he : -2 ^ 31 ≤ e ∧ e < 2 ^ 31)
    (h : stripZeros s e = some (s', e')) : -2 ^ 31 ≤ e' ∧ e' < 2 ^ 31 := by
  induction s using Nat.strong_induction_on generalizing e with
  | _ s ih =>
    rw [stripZeros] at h
    split at h
    case isTrue hzero =>
      simp only [Option.bind_eq_some_iff, checkedI32, checked_eq_some] at h
      obtain ⟨_, ⟨rfl, hrange⟩, h⟩ := h
      exact ih (s / 10) (by omega) hrange h
    case isFalse hnonzero =>
      cases h
      exact he

theorem parse_inRange {text : Text} {d : DecimalCount} (h : DecimalCount.parse text = some d) :
    d.InRange := by
  refine ⟨(parse_value h).2, ?_⟩
  simp only [DecimalCount.parse, Option.bind_eq_bind, Option.bind_eq_some_iff, checkedI32,
    checked_eq_some] at h
  obtain ⟨_, _, _, _, _, _, _, _, _, ⟨rfl, hexponent⟩, h⟩ := h
  split at h
  · cases h
    exact ⟨by norm_num, by norm_num⟩
  · simp only [Option.bind_eq_some_iff] at h
    obtain ⟨⟨significand, exponent10⟩, hstrip, h⟩ := h
    cases h
    exact stripZeros_range hexponent hstrip

theorem parseI64_inRange {text : Text} {z : ℤ} (h : parseI64 text = some z) :
    -2 ^ 63 ≤ z ∧ z < 2 ^ 63 := by
  simp only [parseI64, Option.bind_eq_bind, Option.bind_eq_some_iff] at h
  obtain ⟨value, -, h⟩ := h
  split_ifs at h with hrange
  cases h
  exact hrange

theorem parseSeed_inRange {hex : Text} {v : ℕ} (h : parseSeed hex = some v) : v < 2 ^ 64 := by
  simp only [parseSeed, Option.bind_eq_bind, Option.bind_eq_some_iff] at h
  obtain ⟨_, _, value, _, _, hfits, h⟩ := h
  cases h
  simpa [guard] using hfits

theorem classifyQuantity_inRange {R : Readers F D} {text : Text} {span span' : Span}
    {kind : Atom F D} (h : classifyQuantity R text span = .ok (.atom kind span')) :
    kind.InRange := by
  rw [classifyQuantity] at h
  split at h
  · cases h
    trivial
  · cases h

theorem classifyNumeric_inRange {R : Readers F D} {text : Text} {span span' : Span}
    {kind : Atom F D} (h : classifyNumeric R text span = .ok (.atom kind span')) :
    kind.InRange := by
  rw [classifyNumeric] at h
  split at h
  · rename_i i hinteger
    cases h
    exact parseI64_inRange hinteger
  split at h
  · split_ifs at h
    cases h
    trivial
  split at h
  · split_ifs at h
    · split at h
      · rename_i v hfits
        cases h
        exact (checked_eq_some.mp hfits).1 ▸ (checked_eq_some.mp hfits).2
      · cases h
    · split at h
      · rename_i value hparse
        cases h
        exact parse_inRange hparse
      · exact classifyQuantity_inRange h
  · exact classifyQuantity_inRange h

theorem classifyAtom_inRange {R : Readers F D} {text : Text} {span span' : Span}
    {kind : Atom F D} (h : classifyAtom R text span = .ok (.atom kind span')) : kind.InRange := by
  unfold classifyAtom at h
  split at h
  · cases h
  · split_ifs at h
    cases h
    trivial
  · split at h
    · split at h
      · rename_i v hseed
        cases h
        exact parseSeed_inRange hseed
      · cases h
    · split_ifs at h
      · exact classifyNumeric_inRange h
      · cases h
        trivial

theorem Sexpr.leaf_inRange {R : Readers F D} {text : Text} {kind : Atom F D}
    (h : Sexpr.Leaf R text kind) : kind.InRange := by
  obtain ⟨-, hread⟩ := h
  have hread := hread 0 [] (Or.inr (by simp))
  rw [Sexpr.parseLeaf] at hread
  split_ifs at hread with hquote
  · have hstring := @Sexpr.readString_within F D 0 1 (by omega) (text ++ []).tail []
    rw [Sexpr.parseString] at hread
    rw [hread] at hstring
    obtain ⟨_, value, _, hnode, _⟩ := hstring
    cases hnode
    trivial
  · rw [Sexpr.parseAtom] at hread
    cases hclass : classifyAtom R ((text ++ []).takeWhile fun c => !isAtomDelimiter c)
        ⟨0, 0 + utf8Length ((text ++ []).takeWhile fun c => !isAtomDelimiter c)⟩ with
    | error e =>
      rw [hclass] at hread
      cases hread
    | ok node =>
      rw [hclass] at hread
      simp only [bind, Except.bind, pure, Except.pure, Except.ok.injEq, Prod.mk.injEq] at hread
      rw [hread.1] at hclass
      exact classifyAtom_inRange hclass

theorem parseMeaning_inRange {token : Cursor → Except IrError (Text × Span × Cursor)}
    {meaning : Text → Span → Except IrError (Atom F D)} {cur : Cursor}
    {r : Atom F D × Cursor} (hmeaning : ∀ text span kind, meaning text span = .ok kind → kind.InRange)
    (h : Json.parseMeaning token meaning cur = .ok r) : r.1.InRange := by
  rw [Json.parseMeaning] at h
  split at h
  · cases h
  · split at h
    · cases h
    · rename_i kind hkind
      cases h
      exact hmeaning _ _ _ hkind

theorem parseKind_inRange {R : Readers F D} {start : ℕ} {tag : Text} {cur : Cursor}
    {r : Atom F D × Cursor} (h : Json.parseKind R start tag cur = .ok r) : r.1.InRange := by
  rw [Json.parseKind] at h
  split_ifs at h
  · refine parseMeaning_inRange ?_ h
    intro text span kind hkind
    rw [Json.intKind] at hkind
    split at hkind
    · rename_i v hinteger
      cases hkind
      exact parseI64_inRange hinteger
    · cases hkind
  · refine parseMeaning_inRange ?_ h
    intro text span kind hkind
    rw [Json.floatKind] at hkind
    split at hkind
    · cases hkind
      trivial
    · cases hkind
  · refine parseMeaning_inRange ?_ h
    intro text span kind hkind
    rw [Json.literalKind] at hkind
    split at hkind
    · cases hkind
    · rename_i kind' span' hclass
      split_ifs at hkind
      cases hkind
      exact classifyAtom_inRange hclass
    · cases hkind
  all_goals
    refine parseMeaning_inRange ?_ h
    rintro text span kind ⟨⟩
    trivial

theorem Json.tagged_inRange {R : Readers F D} {text : Text} {kind : Atom F D}
    (h : Json.Tagged R text kind) : kind.InRange := by
  obtain ⟨-, hread⟩ := h
  have hread := hread 0 []
  simp only [Json.parseTagged, bind, Except.bind] at hread
  split at hread
  · cases hread
  split at hread
  · cases hread
  split at hread
  · cases hread
  rename_i hkind
  split at hread
  · cases hread
  simp only [Except.ok.injEq, Prod.mk.injEq, Node.atom.injEq] at hread
  obtain ⟨⟨rfl, -⟩, -⟩ := hread
  exact parseKind_inRange hkind

end Classified

section Trees

variable {S : Grammar (Atom F D)}

mutual

theorem Form.node_inRange (hleaf : ∀ text kind, S.leaf text kind → kind.InRange)
    (form : Form (Atom F D)) {levels : ℕ} (h : form.Valid S levels) (pos : ℕ) :
    (form.node S pos).InRange := by
  match levels, form with
  | 0, form => exact absurd h (by simp [Form.Valid])
  | _ + 1, .leaf text kind => exact hleaf text kind h
  | _ + 1, .list items trail => exact items.nodes_inRange hleaf h.1 _

theorem Items.nodes_inRange (hleaf : ∀ text kind, S.leaf text kind → kind.InRange)
    (items : Items (Atom F D)) {levels : ℕ} {first : Bool} {tail : Text}
    (h : items.Valid S levels first tail) (pos : ℕ) : itemsInRange (items.nodes S pos) := by
  match items with
  | .nil => trivial
  | .cons gap form rest =>
    simp only [Items.Valid] at h
    exact ⟨form.node_inRange hleaf h.2.1 _, rest.nodes_inRange hleaf h.2.2.2 _⟩

end

/-- A program of one of the two syntaxes. -/
def Accepts [DecidableEq D] (K : Codec F D) (src : Text) (tree : Node F D) : Prop :=
  Sexpr.parse K src = .ok tree ∨ Json.parse K src = .ok tree

theorem Accepts.inRange [DecidableEq D] {K : Codec F D} {src : Text} {tree : Node F D}
    (h : Accepts K src tree) : tree.InRange ∧ tree.validate K = .ok () := by
  obtain h | h := h
  · obtain ⟨before, form, after, -, hvalid, rfl, hchecked⟩ := (parse_sexpr_within K src).of_ok h
    exact ⟨form.node_inRange (fun _ _ => Sexpr.leaf_inRange) hvalid _, hchecked⟩
  · obtain ⟨before, form, after, -, hvalid, rfl, hchecked⟩ := (parse_json_within K src).of_ok h
    exact ⟨form.node_inRange (fun _ _ => Json.tagged_inRange) hvalid _, hchecked⟩

/-- Every accepted program can be written in both syntaxes. -/
theorem accepted_isomorphic {K : Codec F Dims} (hK : Documented K) {src : Text}
    {tree : Node F Dims} (h : Accepts K src tree) : Isomorphic K tree :=
  syntaxes_isomorphic hK h.inRange.1 h.inRange.2

theorem accepted_isomorphic_study :
    ∃ tree, Accepts unitCodec "(study :mass 1.0kg)".toList tree ∧ Isomorphic unitCodec tree := by
  have hok : (Sexpr.parse unitCodec "(study :mass 1.0kg)".toList).isOk = true := by decide +kernel
  cases h : Sexpr.parse unitCodec "(study :mass 1.0kg)".toList with
  | error e =>
    rw [h] at hok
    cases hok
  | ok tree => exact ⟨tree, Or.inl h, accepted_isomorphic unitCodec_documented (Or.inl h)⟩

end Trees

end FrankenSim.Ir
