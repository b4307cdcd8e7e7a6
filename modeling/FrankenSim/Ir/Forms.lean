import FrankenSim.Ir.Atoms

/-!
# Concrete syntax

A form is the text that a node is read from: a leaf, or items between brackets with
the gaps in front of them. A grammar says which leaves and gaps it takes. A form
determines the node at every position, and the nodes below it lie on the texts of
the forms below it.
-/
namespace FrankenSim.Ir

open Library

mutual

/-- The text of a node: a leaf with its meaning, or items and what follows the last. -/
inductive Form (A : Type)
  | leaf (text : Text) (kind : A)
  | list (items : Items A) (trail : Text)

/-- Items with the gap in front of each. -/
inductive Items (A : Type)
  | nil
  | cons (gap : Text) (form : Form A) (rest : Items A)

end

/-- What a grammar takes: brackets, leaves, gaps in front of the first and of every
other item, the text behind the last, and what may follow a form. -/
structure Grammar (A : Type) where
  opening : Char
  closing : Char
  leaf : Text → A → Prop
  gap : Bool → Text → Prop
  trail : Text → Prop
  ends : Form A → Option Char → Prop

section

variable {A : Type} (S : Grammar A)

mutual

def Form.text : Form A → Text
  | .leaf text _ => text
  | .list items trail => S.opening :: (items.text ++ (trail ++ [S.closing]))

def Items.text : Items A → Text
  | .nil => []
  | .cons gap form rest => gap ++ (form.text ++ rest.text)

end

mutual

/-- A form of the grammar that is nested less than so many levels deep. -/
def Form.Valid : ℕ → Form A → Prop
  | 0, _ => False
  | _ + 1, .leaf text kind => S.leaf text kind
  | levels + 1, .list items trail =>
    items.Valid levels true (trail ++ [S.closing]) ∧ S.trail trail

/-- Items in front of the given text. -/
def Items.Valid : ℕ → Bool → Text → Items A → Prop
  | _, _, _, .nil => True
  | levels, first, tail, .cons gap form rest =>
    S.gap first gap ∧ form.Valid levels ∧ S.ends form (rest.text S ++ tail).head? ∧
      rest.Valid levels false tail

end

def Items.forms : Items A → List (Form A)
  | .nil => []
  | .cons _ form rest => form :: rest.forms

/-- A form that is below another one, or is it. -/
inductive SubForm : Form A → Form A → Prop
  | refl (form : Form A) : SubForm form form
  | item {form child : Form A} {items : Items A} {trail : Text} (h : child ∈ items.forms)
      (hsub : SubForm form child) : SubForm form (.list items trail)

variable {S}

theorem Items.Valid.mem {levels : ℕ} {first : Bool} {tail : Text} {items : Items A}
    (h : items.Valid S levels first tail) {form : Form A} (hmem : form ∈ items.forms) :
    form.Valid S levels := by
  match items with
  | .nil => exact absurd hmem List.not_mem_nil
  | .cons gap child rest =>
    simp only [Items.Valid] at h
    rcases List.mem_cons.1 hmem with rfl | hrest
    · exact h.2.1
    · exact h.2.2.2.mem hrest

mutual

theorem Form.Valid.succ {levels : ℕ} {form : Form A} (h : form.Valid S levels) :
    form.Valid S (levels + 1) := by
  match levels, form with
  | 0, form => exact absurd h (by simp [Form.Valid])
  | levels + 1, .leaf text kind => exact h
  | levels + 1, .list items trail =>
    simp only [Form.Valid] at h ⊢
    exact ⟨h.1.succ, h.2⟩

theorem Items.Valid.succ {levels : ℕ} {first : Bool} {tail : Text} {items : Items A}
    (h : items.Valid S levels first tail) : items.Valid S (levels + 1) first tail := by
  match items with
  | .nil => trivial
  | .cons gap form rest =>
    simp only [Items.Valid] at h ⊢
    exact ⟨h.1, h.2.1.succ, h.2.2.1, h.2.2.2.succ⟩

end

theorem Form.Valid.mono {levels levels' : ℕ} {form : Form A} (h : form.Valid S levels)
    (hle : levels ≤ levels') : form.Valid S levels' := by
  induction levels', hle using Nat.le_induction with
  | base => exact h
  | succ levels' _ ih => exact ih.succ

theorem SubForm.valid {form root : Form A} (h : SubForm form root) {levels : ℕ}
    (hroot : root.Valid S levels) : form.Valid S levels := by
  induction h generalizing levels with
  | refl => exact hroot
  | item hmem _ ih =>
    match levels with
    | 0 => exact absurd hroot (by simp [Form.Valid])
    | levels + 1 =>
      simp only [Form.Valid] at hroot
      exact (ih (hroot.1.mem hmem)).succ

end

section Positions

/-- The text from a byte on, when a scalar starts there. -/
def dropBytes : ℕ → Text → Option Text
  | 0, text => some text
  | _ + 1, [] => none
  | n + 1, c :: rest => if c.utf8Size ≤ n + 1 then dropBytes (n + 1 - c.utf8Size) rest else none

/-- The slice of a source at a span, when both ends are between two scalars. -/
def slice (src : Text) (span : Span) : Option Text :=
  if span.start ≤ span.stop then
    (dropBytes span.start src).bind (Json.sliceBytes (span.stop - span.start))
  else none

theorem dropBytes_append (before text : Text) :
    dropBytes (utf8Length before) (before ++ text) = some text := by
  induction before with
  | nil => cases text <;> rfl
  | cons c before ih =>
    have hpos := c.utf8Size_pos
    obtain ⟨n, hn⟩ := Nat.exists_eq_add_of_le' (show 1 ≤ utf8Length (c :: before) by
      rw [utf8Length_cons]
      omega)
    have hrest : n + 1 - c.utf8Size = utf8Length before := by
      rw [utf8Length_cons] at hn
      omega
    rw [hn, List.cons_append, dropBytes, hrest, ih, if_pos]
    rw [utf8Length_cons] at hn
    omega

theorem sliceBytes_append (text after : Text) :
    Json.sliceBytes (utf8Length text) (text ++ after) = some text := by
  induction text with
  | nil => cases after <;> rfl
  | cons c text ih =>
    have hpos := c.utf8Size_pos
    obtain ⟨n, hn⟩ := Nat.exists_eq_add_of_le' (show 1 ≤ utf8Length (c :: text) by
      rw [utf8Length_cons]
      omega)
    have hrest : n + 1 - c.utf8Size = utf8Length text := by
      rw [utf8Length_cons] at hn
      omega
    rw [hn, List.cons_append, Json.sliceBytes, hrest, ih, if_pos, Option.map_some]
    rw [utf8Length_cons] at hn
    omega

/-- A part of the source is the slice at its own span. -/
theorem slice_append (before text after : Text) :
    slice (before ++ (text ++ after))
      ⟨utf8Length before, utf8Length before + utf8Length text⟩ = some text := by
  rw [slice, if_pos (Nat.le_add_right _ _)]
  simp only [dropBytes_append, Option.bind_some, Nat.add_sub_cancel_left, sliceBytes_append]

variable {F D : Type} (S : Grammar (Atom F D))

mutual

/-- The node that a form is read as at a position. -/
def Form.node (pos : ℕ) : Form (Atom F D) → Node F D
  | .leaf text kind => .atom kind ⟨pos, pos + utf8Length text⟩
  | .list items trail => .list (items.nodes (pos + S.opening.utf8Size))
      ⟨pos, pos + utf8Length (Form.text S (.list items trail))⟩

def Items.nodes (pos : ℕ) : Items (Atom F D) → List (Node F D)
  | .nil => []
  | .cons gap form rest => form.node (pos + utf8Length gap) ::
      rest.nodes (pos + utf8Length gap + utf8Length (form.text S))

end

variable {S}

@[simp] theorem Form.node_span (pos : ℕ) (form : Form (Atom F D)) :
    (form.node S pos).span = ⟨pos, pos + utf8Length (form.text S)⟩ := by
  cases form <;> simp [Form.node, Node.span, Form.text]

/-- A node that is below another one, or is it. -/
inductive SubNode : Node F D → Node F D → Prop
  | refl (node : Node F D) : SubNode node node
  | item {node child : Node F D} {items : List (Node F D)} {span : Span} (h : child ∈ items)
      (hsub : SubNode node child) : SubNode node (.list items span)

/-- The node of an item stands on the text of its form. -/
theorem Items.mem_nodes {items : Items (Atom F D)} {pos : ℕ} {child : Node F D}
    (h : child ∈ items.nodes S pos) :
    ∃ form before after, form ∈ items.forms ∧ items.text S = before ++ (form.text S ++ after) ∧
      child = form.node S (pos + utf8Length before) := by
  match items with
  | .nil => exact absurd h (by simp [Items.nodes])
  | .cons gap form rest =>
    simp only [Items.nodes, List.mem_cons] at h
    rcases h with rfl | h
    · exact ⟨form, gap, rest.text S, List.mem_cons_self, by simp [Items.text], rfl⟩
    · obtain ⟨form', before, after, hmem, htext, rfl⟩ := Items.mem_nodes h
      refine ⟨form', gap ++ form.text S ++ before, after, List.mem_cons_of_mem _ hmem, ?_, ?_⟩
      · simp [Items.text, htext]
      · rw [utf8Length_append, utf8Length_append]
        congr 1
        omega

/-- A node below that of a form stands on the text of a form below it. -/
theorem SubNode.form {node root : Node F D} (h : SubNode node root) {form : Form (Atom F D)}
    {pos : ℕ} (hroot : root = form.node S pos) :
    ∃ sub before after, SubForm sub form ∧ form.text S = before ++ (sub.text S ++ after) ∧
      node = sub.node S (pos + utf8Length before) := by
  induction h generalizing form pos with
  | refl =>
    subst hroot
    exact ⟨form, [], [], .refl form, by simp, by simp [utf8Length_nil]⟩
  | item hmem _ ih =>
    cases form with
    | leaf text kind => simp [Form.node] at hroot
    | list items trail =>
      simp only [Form.node, Node.list.injEq] at hroot
      obtain ⟨rfl, -⟩ := hroot
      obtain ⟨child, before, after, hchild, htext, rfl⟩ := Items.mem_nodes hmem
      obtain ⟨sub, before', after', hsub, htext', rfl⟩ := ih rfl
      refine ⟨sub, S.opening :: (before ++ before'), after' ++ (after ++ (trail ++ [S.closing])),
        .item hchild hsub, ?_, ?_⟩
      · simp [Form.text, htext, htext']
      · rw [utf8Length_cons, utf8Length_append]
        congr 1
        omega

/-- Every child lies strictly inside of its parent, and children follow each other. -/
def Node.Nested (root : Node F D) : Prop :=
  ∀ items span, SubNode (.list items span) root →
    (∀ child ∈ items, span.start < child.span.start ∧ child.span.start ≤ child.span.stop ∧
      child.span.stop < span.stop) ∧
    items.Pairwise fun a b => a.span.stop ≤ b.span.start

theorem Items.nodes_pairwise (items : Items (Atom F D)) (pos : ℕ) :
    (items.nodes S pos).Pairwise fun a b => a.span.stop ≤ b.span.start := by
  match items with
  | .nil => exact List.Pairwise.nil
  | .cons gap form rest =>
    rw [Items.nodes, List.pairwise_cons]
    refine ⟨?_, rest.nodes_pairwise _⟩
    intro child hchild
    obtain ⟨form', before, after, -, -, rfl⟩ := Items.mem_nodes hchild
    simp only [Form.node_span]
    omega

theorem Form.node_nested (form : Form (Atom F D)) (pos : ℕ) : (form.node S pos).Nested := by
  intro items span hsub
  obtain ⟨sub, before, after, -, -, hnode⟩ := hsub.form rfl
  cases sub with
  | leaf text kind => simp [Form.node] at hnode
  | list items' trail =>
    simp only [Form.node, Node.list.injEq] at hnode
    obtain ⟨rfl, rfl⟩ := hnode
    refine ⟨?_, items'.nodes_pairwise _⟩
    intro child hchild
    obtain ⟨form', before', after', -, htext, rfl⟩ := Items.mem_nodes hchild
    have hopening := S.opening.utf8Size_pos
    have hclosing := S.closing.utf8Size_pos
    have hlength := congrArg utf8Length htext
    simp only [utf8Length_append] at hlength
    simp only [Form.node_span, Form.text, utf8Length_cons, utf8Length_append, utf8Length_nil]
    omega

end Positions

section Reading

theorem takeWhile_ended {p : Char → Bool} {text rest : Text} (htext : ∀ c ∈ text, p c = true)
    (hrest : ∀ c ∈ rest.head?, p c = false) :
    (text ++ rest).takeWhile p = text ∧ (text ++ rest).dropWhile p = rest := by
  have hnone : rest.takeWhile p = [] ∧ rest.dropWhile p = rest := by
    cases rest with
    | nil => exact ⟨rfl, rfl⟩
    | cons c rest =>
      have hc : ¬ p c = true := by simp [hrest c rfl]
      exact ⟨List.takeWhile_cons_of_neg hc, List.dropWhile_cons_of_neg hc⟩
  rw [List.takeWhile_append_of_pos htext, List.dropWhile_append_of_pos htext, hnone.1, hnone.2]
  exact ⟨List.append_nil text, rfl⟩

theorem head?_append_cons (text rest rest' : Text) (c : Char) :
    (text ++ c :: rest).head? = (text ++ c :: rest').head? := by
  cases text <;> rfl

/-- A text was read: the next cursor stands behind it. -/
structure Reads (cur : Cursor) (text : Text) (next : Cursor) : Prop where
  rest : cur.rest = text ++ next.rest
  pos : next.pos = cur.pos + utf8Length text

/-- The span of an error is ordered and within the source. -/
def InSource (stop : ℕ) (e : IrError) : Prop :=
  e.span.start ≤ e.span.stop ∧ e.span.stop ≤ stop

/-- Some bytes from a place in the source on. -/
theorem inSource_min {pos stop k : ℕ} (hle : pos ≤ stop) (kind : IrErrorKind)
    (detail hint : String) : InSource stop ⟨⟨pos, min (pos + k) stop⟩, kind, detail, hint⟩ :=
  ⟨Nat.le_min.2 ⟨Nat.le_add_right _ _, hle⟩, Nat.min_le_right _ _⟩

variable {cur mid next : Cursor} {text text' : Text}

theorem Reads.refl (cur : Cursor) : Reads cur [] cur := ⟨rfl, rfl⟩

theorem Reads.trans (h : Reads cur text mid) (h' : Reads mid text' next) :
    Reads cur (text ++ text') next := by
  constructor
  · rw [h.rest, h'.rest, List.append_assoc]
  · rw [h'.pos, h.pos, utf8Length_append, Nat.add_assoc]

theorem Reads.stop_eq (h : Reads cur text next) : next.stop = cur.stop := by
  rw [Cursor.stop, Cursor.stop, h.rest, h.pos, utf8Length_append, Nat.add_assoc]

theorem Reads.eq (h : Reads cur text next) : cur = ⟨cur.pos, text ++ next.rest⟩ := by
  rw [← h.rest]

theorem Cursor.pos_le_stop (cur : Cursor) : cur.pos ≤ cur.stop := Nat.le_add_right _ _

theorem Reads.pos_le_stop (h : Reads cur text next) : next.pos ≤ cur.stop :=
  h.stop_eq ▸ next.pos_le_stop

theorem Reads.le_pos (h : Reads cur text next) : cur.pos ≤ next.pos :=
  h.pos ▸ Nat.le_add_right _ _

variable {F D : Type} {S : Grammar (Atom F D)} {levels : ℕ}

/-- A form was read behind a gap, and its node was returned. -/
def ReadsForm (S : Grammar (Atom F D)) (levels : ℕ) (gap : Text → Prop) (cur : Cursor)
    (r : Node F D × Cursor) : Prop :=
  ∃ (front : Text) (form : Form (Atom F D)), gap front ∧ form.Valid S levels ∧ S.ends form r.2.rest.head? ∧
    Reads cur (front ++ form.text S) r.2 ∧ r.1 = form.node S (cur.pos + utf8Length front)

/-- The rest of a list was read, and its nodes were appended to the ones before. -/
def ReadsItems (S : Grammar (Atom F D)) (levels : ℕ) (first : Bool) (start : ℕ) (cur : Cursor)
    (before : List (Node F D)) (r : Node F D × Cursor) : Prop :=
  ∃ (items : Items (Atom F D)) (trail : Text),
    items.Valid S levels first (trail ++ [S.closing]) ∧ S.trail trail ∧
    Reads cur (items.text S ++ (trail ++ [S.closing])) r.2 ∧
    r.1 = .list (before ++ items.nodes S cur.pos) ⟨start, r.2.pos⟩

theorem ReadsForm.reads {gap : Text → Prop} {r : Node F D × Cursor}
    (h : ReadsForm S levels gap cur r) : ∃ text, Reads cur text r.2 := by
  obtain ⟨front, form, -, -, -, hreads, -⟩ := h
  exact ⟨_, hreads⟩

theorem readsItems_nil {first : Bool} {start : ℕ} {trail : Text} (htrail : S.trail trail)
    {before : List (Node F D)} (h : Reads cur (trail ++ [S.closing]) next) :
    ReadsItems S levels first start cur before (.list before ⟨start, next.pos⟩, next) :=
  ⟨.nil, trail, trivial, htrail, h, by simp [Items.nodes]⟩

theorem ReadsItems.cons {first : Bool} {start : ℕ} {before : List (Node F D)} {node : Node F D}
    {r : Node F D × Cursor} (h : ReadsItems S levels false start next (before ++ [node]) r)
    (hform : ReadsForm S levels (S.gap first) cur (node, next)) :
    ReadsItems S levels first start cur before r := by
  obtain ⟨items, trail, hvalid, htrail, hreads, hnode⟩ := h
  obtain ⟨front, form, hgap, hform, hends, hread, hone⟩ := hform
  refine ⟨.cons front form items, trail, ⟨hgap, hform, ?_, hvalid⟩, htrail, ?_, ?_⟩
  · rw [hreads.rest] at hends
    cases htext : items.text S ++ (trail ++ [S.closing]) with
    | nil => simp at htext
    | cons c text =>
      rw [htext] at hends
      exact hends
  · simpa [Items.text] using hread.trans hreads
  · have hpos := hread.pos
    rw [utf8Length_append, ← Nat.add_assoc] at hpos
    simp only at hone
    rw [hnode, hone, hpos, Items.nodes, List.append_assoc, List.singleton_append]

theorem ReadsItems.form {r : Node F D × Cursor} (hopening : Reads cur [S.opening] next)
    (hends : ∀ items trail next, S.ends (.list items trail) next)
    (h : ReadsItems S levels true cur.pos next [] r) :
    ReadsForm S (levels + 1) (· = []) cur r := by
  obtain ⟨items, trail, hvalid, htrail, hreads, hnode⟩ := h
  have hread := hopening.trans hreads
  refine ⟨[], .list items trail, rfl, ⟨hvalid, htrail⟩, hends _ _ _, hread, ?_⟩
  have hpos := hread.pos
  have hnext := hopening.pos
  rw [utf8Length_cons, utf8Length_nil, Nat.add_zero] at hnext
  rw [hnode, hnext, hpos, List.nil_append, utf8Length_nil, Nat.add_zero, Form.node]
  rfl

theorem ReadsForm.behind {gap gap' : Text → Prop} {front : Text} {r : Node F D × Cursor}
    (h : ReadsForm S levels gap next r) (hread : Reads cur front next)
    (hgap : ∀ text, gap text → gap' (front ++ text)) : ReadsForm S levels gap' cur r := by
  obtain ⟨text, form, htext, hform, hends, hreads, hnode⟩ := h
  refine ⟨front ++ text, form, hgap text htext, hform, hends, ?_, ?_⟩
  · rw [List.append_assoc]
    exact hread.trans hreads
  · rw [hnode, hread.pos, utf8Length_append, Nat.add_assoc]

theorem ReadsForm.behind_nil {gap : Text → Prop} {front : Text} {r : Node F D × Cursor}
    (h : ReadsForm S levels (· = []) next r) (hread : Reads cur front next) (hgap : gap front) :
    ReadsForm S levels gap cur r := by
  apply h.behind hread
  rintro _ rfl
  rwa [List.append_nil]

end Reading

end FrankenSim.Ir
