import FrankenSim.Ir.Sexpr
import FrankenSim.Ir.JsonReader

/-!
# Spans of programs

Both readers accept the forms of a grammar. A form is read as the same tree at every
position but for the spans, so the slice at the span of any node reads as that node.
-/
namespace FrankenSim.Ir

open Library

variable {F D : Type} [DecidableEq D] (K : Codec F D)

section Validation

/-- A check that refuses the span it is given, and passes at every place if at one. -/
def Placed {A : Type} (check : String → Span → Except IrError A) : Prop :=
  ∀ path span, match check path span with
    | .error e => e.span = span
    | .ok a => ∀ path' span', check path' span' = .ok a

theorem placed_ok {A : Type} (a : A) : Placed fun _ _ => .ok a := fun _ _ _ _ => rfl

theorem placed_error {A : Type} {e : String → Span → IrError}
    (he : ∀ path span, (e path span).span = span) :
    Placed (fun path span => .error (e path span) : String → Span → Except IrError A) := he

theorem placed_ite {A : Type} {c : Prop} [Decidable c]
    {check check' : String → Span → Except IrError A} (h : Placed check) (h' : Placed check') :
    Placed fun path span => if c then check path span else check' path span := by
  by_cases hc : c
  · simpa only [if_pos hc] using h
  · simpa only [if_neg hc] using h'

theorem placed_map {A B : Type} {check : String → Span → Except IrError A} (h : Placed check)
    (f : A → B) : Placed fun path span => (check path span).map f := by
  intro path span
  have hcheck := h path span
  dsimp only
  cases hvalue : check path span with
  | error e =>
    rw [hvalue] at hcheck
    exact hcheck
  | ok a =>
    rw [hvalue] at hcheck
    intro path' span'
    rw [hcheck]
    rfl

theorem Placed.of_ok {A : Type} {check : String → Span → Except IrError A} (h : Placed check)
    {path : String} {span : Span} {a : A} (hok : check path span = .ok a) (path' : String)
    (span' : Span) : check path' span' = .ok a := by
  have hplaced := h path span
  rw [hok] at hplaced
  exact hplaced path' span'

theorem canonicalQuantityText_placed (value : F) (dims : D) :
    Placed fun _ span => canonicalQuantityText K value dims span := by
  unfold canonicalQuantityText
  apply placed_ite (placed_error fun _ _ => rfl)
  dsimp only
  cases K.parseQty (K.debugF64 value ++ K.unitText dims) with
  | error e => exact placed_error fun _ _ => rfl
  | ok quantity => exact placed_ite (placed_error fun _ _ => rfl) (placed_ok _)

/-- Whether an atom is valid does not depend on its place. -/
theorem validateAtom_placed (kind : Atom F D) :
    Placed fun path span => validateAtom K path span kind := by
  cases kind with
  | float value => exact placed_ite (placed_error fun _ _ => rfl) (placed_ok _)
  | qty value dims text =>
    apply placed_ite (placed_error fun _ _ => rfl)
    apply placed_ite (placed_error fun _ _ => rfl)
    cases K.parseQty text with
    | error e => exact placed_error fun _ _ => rfl
    | ok quantity =>
      apply placed_ite (placed_error fun _ _ => rfl)
      exact placed_map (canonicalQuantityText_placed K value dims) _
  | symbol symbol => exact placed_ite (placed_error fun _ _ => rfl) (placed_ok _)
  | keyword keyword => exact placed_ite (placed_error fun _ _ => rfl) (placed_ok _)
  | int value => exact placed_ok _
  | count value unit => exact placed_ok _
  | seed value => exact placed_ok _
  | str text => exact placed_ok _

variable {K}

theorem validateItems_mem {items : List (Node F D)} {depth index : ℕ} {path : String}
    (h : validateItems K depth path index items = .ok ()) {child : Node F D}
    (hmem : child ∈ items) : ∃ path', child.validateAt K (depth + 1) path' = .ok () := by
  induction items generalizing index with
  | nil => exact absurd hmem List.not_mem_nil
  | cons item items ih =>
    rw [validateItems] at h
    cases hitem : item.validateAt K (depth + 1) (path ++ "[" ++ toString index ++ "]") with
    | error e =>
      rw [hitem] at h
      cases h
    | ok _ =>
      rw [hitem] at h
      rcases List.mem_cons.1 hmem with rfl | hmem
      · exact ⟨_, hitem⟩
      · exact ih h hmem

theorem validateItems_of_list {items : List (Node F D)} {span : Span} {depth : ℕ} {path : String}
    (h : Node.validateAt K depth path (.list items span) = .ok ()) :
    validateHead depth path span = .ok () ∧ validateItems K depth path 0 items = .ok () := by
  rw [Node.validateAt] at h
  cases hhead : validateHead depth path span with
  | error e =>
    rw [hhead] at h
    cases h
  | ok _ =>
    rw [hhead] at h
    exact ⟨rfl, h⟩

theorem SubNode.validateAt {node root : Node F D} (h : SubNode node root) {depth : ℕ}
    {path : String} (hroot : root.validateAt K depth path = .ok ()) :
    ∃ depth' path', node.validateAt K depth' path' = .ok () := by
  induction h generalizing depth path with
  | refl => exact ⟨depth, path, hroot⟩
  | item hmem _ ih =>
    obtain ⟨path', hchild⟩ := validateItems_mem (validateItems_of_list hroot).2 hmem
    exact ih hchild

theorem validateHead_error {depth : ℕ} {path : String} {span : Span} {e : IrError}
    (h : validateHead depth path span = .error e) (hle : span.start ≤ span.stop) :
    e.span = span := by
  rw [validateHead, if_neg (by omega)] at h
  split_ifs at h
  cases h
  rfl

mutual

theorem Node.validateAt_error (root : Node F D) {depth : ℕ} {path : String} {e : IrError}
    (h : root.validateAt K depth path = .error e) :
    ∃ node, SubNode node root ∧ (node.span.start ≤ node.span.stop → e.span = node.span) := by
  match root with
  | .atom kind span =>
    rw [Node.validateAt] at h
    refine ⟨_, .refl _, fun hle => ?_⟩
    cases hhead : validateHead depth path span with
    | error e' =>
      rw [hhead] at h
      cases h
      exact validateHead_error hhead hle
    | ok _ =>
      rw [hhead] at h
      have hplaced := validateAtom_placed K kind path span
      dsimp only at h hplaced
      rw [h] at hplaced
      exact hplaced
  | .list items span =>
    rw [Node.validateAt] at h
    cases hhead : validateHead depth path span with
    | error e' =>
      rw [hhead] at h
      cases h
      exact ⟨_, .refl _, validateHead_error hhead⟩
    | ok _ =>
      rw [hhead] at h
      obtain ⟨child, hmem, node, hsub, hspan⟩ := validateItems_error items h
      exact ⟨node, .item hmem hsub, hspan⟩

theorem validateItems_error (items : List (Node F D)) {depth index : ℕ} {path : String}
    {e : IrError} (h : validateItems K depth path index items = .error e) :
    ∃ child ∈ items, ∃ node, SubNode node child ∧
      (node.span.start ≤ node.span.stop → e.span = node.span) := by
  match items with
  | [] => cases h
  | item :: items =>
    rw [validateItems] at h
    cases hitem : item.validateAt K (depth + 1) (path ++ "[" ++ toString index ++ "]") with
    | error e' =>
      rw [hitem] at h
      cases h
      obtain ⟨node, hsub, hspan⟩ := Node.validateAt_error item hitem
      exact ⟨item, List.mem_cons_self, node, hsub, hspan⟩
    | ok _ =>
      rw [hitem] at h
      obtain ⟨child, hmem, hnode⟩ := validateItems_error items h
      exact ⟨child, List.mem_cons_of_mem _ hmem, hnode⟩

end

variable {S : Grammar (Atom F D)}

theorem validateHead_ok {depth : ℕ} (path : String) (pos length : ℕ) :
    validateHead depth path ⟨pos, pos + length⟩ = .ok () ↔ depth ≤ MAX_DEPTH := by
  rw [validateHead, if_neg (by simp)]
  split_ifs with h
  · simp only [false_iff]
    omega
  · simp only [true_iff]
    omega

mutual

/-- Whether the tree of a form is valid does not depend on its place. -/
theorem Form.validateAt_node (form : Form (Atom F D)) {depth pos : ℕ} {path : String}
    (h : (form.node S pos).validateAt K depth path = .ok ()) {depth' : ℕ} (hdepth : depth' ≤ depth)
    (path' : String) (pos' : ℕ) : (form.node S pos').validateAt K depth' path' = .ok () := by
  match form with
  | .leaf text kind =>
    rw [Form.node, Node.validateAt] at h ⊢
    cases hhead : validateHead depth path ⟨pos, pos + utf8Length text⟩ with
    | error e =>
      rw [hhead] at h
      cases h
    | ok _ =>
      rw [hhead] at h
      have hle := (validateHead_ok path pos (utf8Length text)).1 hhead
      have hplaced := validateAtom_placed K kind path ⟨pos, pos + utf8Length text⟩
      dsimp only at h hplaced
      rw [h] at hplaced
      rw [(validateHead_ok path' pos' _).2 (hdepth.trans hle)]
      exact hplaced _ _
  | .list items trail =>
    obtain ⟨hhead, hitems⟩ := validateItems_of_list h
    have hle := (validateHead_ok path pos _).1 hhead
    rw [Form.node, Node.validateAt, (validateHead_ok path' pos' _).2 (hdepth.trans hle)]
    exact Items.validateItems_nodes items hitems hdepth path' _ _

theorem Items.validateItems_nodes (items : Items (Atom F D)) {depth index pos : ℕ} {path : String}
    (h : validateItems K depth path index (items.nodes S pos) = .ok ()) {depth' : ℕ}
    (hdepth : depth' ≤ depth) (path' : String) (index' pos' : ℕ) :
    validateItems K depth' path' index' (items.nodes S pos') = .ok () := by
  match items with
  | .nil => rfl
  | .cons gap form items =>
    rw [Items.nodes, validateItems] at h ⊢
    cases hitem : (form.node S (pos + utf8Length gap)).validateAt K (depth + 1)
        (path ++ "[" ++ toString index ++ "]") with
    | error e =>
      rw [hitem] at h
      cases h
    | ok _ =>
      rw [hitem] at h
      rw [form.validateAt_node hitem (Nat.succ_le_succ hdepth) _ _]
      exact items.validateItems_nodes h hdepth _ _ _

end

end Validation

section Shapes

variable (S : Grammar (Atom F D))

mutual

/-- A form is read as trees of one shape. -/
theorem Form.sameShape_node (form : Form (Atom F D)) (pos pos' : ℕ) :
    (form.node S pos).sameShape K (form.node S pos') = true := by
  match form with
  | .leaf text kind =>
    rw [Form.node, Form.node, Node.sameShape]
    exact Atom.sameShape_refl K kind
  | .list items trail =>
    rw [Form.node, Form.node, Node.sameShape]
    exact Items.sameShapes_nodes items _ _

theorem Items.sameShapes_nodes (items : Items (Atom F D)) (pos pos' : ℕ) :
    sameShapes K (items.nodes S pos) (items.nodes S pos') = true := by
  match items with
  | .nil => rfl
  | .cons gap form items =>
    rw [Items.nodes, Items.nodes, sameShapes, Form.sameShape_node form,
      Items.sameShapes_nodes items]
    rfl

end

end Shapes

section ByteExact

/-- A parser whose spans are exact on a source. -/
structure ByteExact (parse : Text → Except IrError (Node F D)) (src : Text) : Prop where
  slices : ∀ tree, parse src = .ok tree → ∀ node, SubNode node tree →
    ∃ piece again, slice src node.span = some piece ∧ parse piece = .ok again ∧
      again.sameShape K node = true
  nested : ∀ tree, parse src = .ok tree → tree.Nested
  refused : ∀ e, parse src = .error e → InSource (utf8Length src) e

/-- The tree is that of a form in the source. -/
def ReadsProgram (S : Grammar (Atom F D)) (src : Text) (tree : Node F D) : Prop :=
  ∃ (before : Text) (form : Form (Atom F D)) (after : Text),
    src = before ++ (form.text S ++ after) ∧ form.Valid S (MAX_DEPTH + 1) ∧
      tree = form.node S (utf8Length before) ∧ tree.validate K = .ok ()

variable {K} {S : Grammar (Atom F D)} {parse : Text → Except IrError (Node F D)}

/-- A parser that reads forms of the source, and every valid form, has exact spans. -/
theorem byteExact_of_reads {src : Text}
    (hreads : Within (InSource (utf8Length src)) (ReadsProgram K S src) (parse src))
    (hform : ∀ form : Form (Atom F D), form.Valid S (MAX_DEPTH + 1) →
      (form.node S 0).validate K = .ok () → parse (form.text S) = .ok (form.node S 0)) :
    ByteExact K parse src := by
  constructor
  · intro tree htree node hsub
    obtain ⟨before, form, after, hsrc, hvalid, rfl, hchecked⟩ := hreads.of_ok htree
    obtain ⟨depth, path, hnode⟩ := hsub.validateAt hchecked
    obtain ⟨sub, front, back, hbelow, htext, rfl⟩ := hsub.form rfl
    refine ⟨sub.text S, sub.node S 0, ?_, ?_, sub.sameShape_node K S _ _⟩
    · have hslice := slice_append (before ++ front) (sub.text S) (back ++ after)
      rw [utf8Length_append] at hslice
      rw [Form.node_span, ← hslice, hsrc, htext]
      simp only [List.append_assoc]
    · apply hform sub (hbelow.valid hvalid)
      exact sub.validateAt_node hnode (Nat.zero_le _) _ _
  · intro tree htree
    obtain ⟨before, form, after, -, -, rfl, -⟩ := hreads.of_ok htree
    exact form.node_nested _
  · intro e he
    rw [he] at hreads
    exact hreads

/-- The last step of a parser: nothing may follow the form, and its tree must be valid. -/
theorem finish_within {src front trail : Text} {start next last : Cursor} {node : Node F D}
    {gap : Text → Prop} (hfront : Reads ⟨0, src⟩ front start)
    (hform : ReadsForm S (MAX_DEPTH + 1) gap start (node, next)) (hlast : Reads next trail last)
    (detail hint : String) :
    Within (InSource (utf8Length src)) (ReadsProgram K S src)
      (if last.rest ≠ [] then .error ⟨⟨last.pos, last.stop⟩, .trailingInput, detail, hint⟩
      else do
        node.validate K
        return node) := by
  obtain ⟨text, form, -, hvalid, -, hread, hnode⟩ := hform
  have hall := (hfront.trans hread).trans hlast
  have hstop : last.stop = utf8Length src := by
    rw [hall.stop_eq, Cursor.stop, Nat.zero_add]
  have hsrc : src = front ++ text ++ (form.text S ++ (trail ++ last.rest)) := by
    simpa using hall.rest
  have hnode : node = form.node S (utf8Length (front ++ text)) := by
    rw [show node = _ from hnode, hfront.pos, utf8Length_append, Nat.zero_add]
  split_ifs with hrest
  · exact ⟨last.pos_le_stop, hstop.le⟩
  · cases hcheck : node.validate K with
    | error e =>
      obtain ⟨sub, hsub, hspan⟩ := Node.validateAt_error node hcheck
      obtain ⟨below, before, after, -, htext, rfl⟩ := hsub.form hnode
      have hlength := congrArg utf8Length hsrc
      rw [htext] at hlength
      simp only [utf8Length_append] at hlength hspan
      rw [Form.node_span] at hspan
      change InSource _ e
      rw [InSource, hspan (Nat.le_add_right _ _)]
      dsimp only
      omega
    | ok _ => exact ⟨front ++ text, form, _, hsrc, hvalid, hnode, hcheck⟩

theorem parse_sexpr_within (K : Codec F D) (src : Text) :
    Within (InSource (utf8Length src)) (ReadsProgram K (Sexpr.grammar K.toReaders) src)
      (Sexpr.parse K src) := by
  obtain ⟨front, hfront, hsettled, -⟩ := Sexpr.skipTrivia_spec ⟨0, src⟩
  have hnode := Sexpr.parseNode_within K.toReaders (MAX_DEPTH + 1) hsettled
  rw [hfront.stop_eq, Cursor.stop, Nat.zero_add] at hnode
  rw [Sexpr.parse]
  apply hnode.bind
  rintro ⟨node, next⟩ hform
  obtain ⟨trail, htrail, -, -⟩ := Sexpr.skipTrivia_spec next
  exact finish_within hfront hform htrail _ _

theorem parse_json_within (K : Codec F D) (src : Text) :
    Within (InSource (utf8Length src)) (ReadsProgram K (Json.grammar K.toReaders) src)
      (Json.parse K src) := by
  obtain ⟨front, -, hfront, -⟩ := Json.skipWs_spec ⟨0, src⟩
  have hnode := Json.parseValue_within K.toReaders (MAX_DEPTH + 1) (Json.skipWs ⟨0, src⟩)
  rw [hfront.stop_eq, Cursor.stop, Nat.zero_add] at hnode
  rw [Json.parse]
  apply hnode.bind
  rintro ⟨node, next⟩ hform
  obtain ⟨trail, -, htrail, -⟩ := Json.skipWs_spec next
  exact finish_within hfront hform htrail _ _

theorem parse_sexpr_form (K : Codec F D) {form : Form (Atom F D)}
    (h : form.Valid (Sexpr.grammar K.toReaders) (MAX_DEPTH + 1))
    (hvalid : (form.node (Sexpr.grammar K.toReaders) 0).validate K = .ok ()) :
    Sexpr.parse K (form.text (Sexpr.grammar K.toReaders)) =
      .ok (form.node (Sexpr.grammar K.toReaders) 0) := by
  obtain ⟨c, text, htext, -, hsettled⟩ := Sexpr.valid_head h
  have hends : (Sexpr.grammar K.toReaders).ends form ([] : Text).head? := by
    cases form with
    | leaf text kind => exact Or.inr (by simp)
    | list items trail => trivial
  have hread := Sexpr.parseNode_form form h 0 hends
  have hstart : Sexpr.Settled (form.text (Sexpr.grammar K.toReaders)) := by
    have hsettled := hsettled []
    rwa [List.append_nil, ← htext] at hsettled
  have hlast : ∀ pos, Sexpr.skipTrivia ⟨pos, []⟩ = ⟨pos, []⟩ := fun _ => rfl
  rw [List.append_nil] at hread
  rw [Sexpr.parse, Sexpr.skipTrivia_settled hstart, hread]
  simp only [bind, Except.bind, hlast, hvalid, pure, Except.pure, ne_eq, not_true_eq_false,
    if_false]

theorem parse_json_form (K : Codec F D) {form : Form (Atom F D)}
    (h : form.Valid (Json.grammar K.toReaders) (MAX_DEPTH + 1))
    (hvalid : (form.node (Json.grammar K.toReaders) 0).validate K = .ok ()) :
    Json.parse K (form.text (Json.grammar K.toReaders)) =
      .ok (form.node (Json.grammar K.toReaders) 0) := by
  obtain ⟨c, text, htext, hws, -⟩ := Json.valid_head h
  have hblank : Json.Blank [] := by simp [Json.Blank]
  have hread := Json.parseValue_form form h hblank 0 []
  have hstart : Json.skipWs ⟨0, form.text (Json.grammar K.toReaders)⟩ =
      ⟨0, form.text (Json.grammar K.toReaders)⟩ := by
    rw [htext]
    exact Json.skipWs_closing hblank 0 text hws
  have hlast : ∀ pos, Json.skipWs ⟨pos, []⟩ = ⟨pos, []⟩ := fun _ => rfl
  rw [List.append_nil, List.nil_append, utf8Length_nil, Nat.zero_add] at hread
  rw [Json.parse, hstart, hread]
  simp only [bind, Except.bind, hlast, hvalid, pure, Except.pure, ne_eq, not_true_eq_false,
    if_false]

/-- The spans of both readers are exact on every source. -/
theorem spans_exact (K : Codec F D) (src : Text) :
    ByteExact K (Sexpr.parse K) src ∧ ByteExact K (Json.parse K) src := by
  constructor
  · exact byteExact_of_reads (parse_sexpr_within K src) fun form => parse_sexpr_form K
  · exact byteExact_of_reads (parse_json_within K src) fun form => parse_json_form K

end ByteExact

end FrankenSim.Ir
