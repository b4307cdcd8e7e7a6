import FrankenSim.Ir.PrintedLeaves

/-!
# The two syntaxes are isomorphic on valid trees

A printer that writes the leaves and the gaps of a grammar writes a valid tree as a form of
the grammar, and the form is read as a tree of the same shape. Trees of the same shape are
printed alike, so a tree that was read back is printed as the same text in either syntax.
-/
namespace FrankenSim.Ir

open Library

variable {F D : Type}

mutual

/-- A tree of values of the types of the source. -/
def Node.InRange : Node F D → Prop
  | .atom kind _ => kind.InRange
  | .list items _ => itemsInRange items

def itemsInRange : List (Node F D) → Prop
  | [] => True
  | item :: items => item.InRange ∧ itemsInRange items

end

/-- A printer that writes the forms of a grammar, whatever the spelling of quantities. -/
structure Layout.Writes (K : Codec F Dims) (P : Layout F Dims) (S : Grammar (Atom F Dims)) :
    Prop where
  opening : P.opening = S.opening
  closing : P.closing = S.closing
  atom : ∀ {path span kind}, kind.InRange → validateAtom K path span kind = .ok () →
    ∃ text, P.atom span kind = .ok text ∧ S.leaf text (kind.canonical K)
  shape : ∀ {span kind span' kind' text}, kind.sameShape K kind' = true →
    P.atom span kind = .ok text → P.atom span' kind' = .ok text
  first : S.gap true []
  next : S.gap false [P.separator]
  trail : S.trail []
  ends : ∀ form c, c = P.separator ∨ c = P.closing → S.ends form (some c)

section Printing

variable {K : Codec F Dims} {P : Layout F Dims} {S : Grammar (Atom F Dims)}

theorem validateHead_depth {depth : ℕ} {path : String} {span : Span}
    (h : validateHead depth path span = .ok ()) : depth ≤ MAX_DEPTH := by
  rw [validateHead] at h
  split_ifs at h
  omega

mutual

/-- A valid tree is written as a form that is valid, and that is read as its shape. -/
theorem Node.printInto_form (hK : Documented K) (hP : P.Writes K S) (node : Node F Dims)
    {depth : ℕ} {path : String} (hrange : node.InRange)
    (hvalid : node.validateAt K depth path = .ok ()) :
    ∃ form : Form (Atom F Dims), node.printInto P = .ok (form.text S) ∧
      form.Valid S (MAX_DEPTH + 1 - depth) ∧ ∀ pos, node.sameShape K (form.node S pos) = true ∧
        ∀ path', (form.node S pos).validateAt K depth path' = .ok () := by
  match node with
  | .atom kind span =>
    rw [Node.validateAt] at hvalid
    cases hhead : validateHead depth path span with
    | error e =>
      rw [hhead] at hvalid
      cases hvalid
    | ok _ =>
      rw [hhead] at hvalid
      have hdepth := validateHead_depth hhead
      obtain ⟨text, hprint, hleaf⟩ := hP.atom hrange hvalid
      refine ⟨.leaf text (kind.canonical K), hprint, ?_, fun pos => ⟨?_, fun path' => ?_⟩⟩
      · rw [show MAX_DEPTH + 1 - depth = MAX_DEPTH - depth + 1 by omega]
        exact hleaf
      · rw [Form.node, Node.sameShape]
        exact sameShape_canonical K kind
      · rw [Form.node, Node.validateAt, (validateHead_ok path' pos _).2 hdepth]
        exact validateAtom_canonical hK hvalid path' _
  | .list items span =>
    obtain ⟨hhead, hitems⟩ := validateItems_of_list hvalid
    have hdepth := validateHead_depth hhead
    obtain ⟨forms, hprint, hforms, -, hread⟩ := printItems_form hK hP items hdepth true hrange hitems
    refine ⟨.list forms [], ?_, ?_, fun pos => ⟨?_, fun path' => ?_⟩⟩
    · rw [Node.printInto, hprint, Form.text, hP.opening, hP.closing]
      rfl
    · rw [show MAX_DEPTH + 1 - depth = MAX_DEPTH - depth + 1 by omega]
      exact ⟨hforms, hP.trail⟩
    · rw [Form.node, Node.sameShape]
      exact (hread _).1
    · rw [Form.node, Node.validateAt, (validateHead_ok path' pos _).2 hdepth]
      exact (hread _).2 path' 0

theorem printItems_form (hK : Documented K) (hP : P.Writes K S) (items : List (Node F Dims))
    {depth index : ℕ} {path : String} (hdepth : depth ≤ MAX_DEPTH) (first : Bool)
    (hrange : itemsInRange items) (hvalid : validateItems K depth path index items = .ok ()) :
    ∃ forms : Items (Atom F Dims), printItems P first items = .ok (forms.text S) ∧
      forms.Valid S (MAX_DEPTH - depth) first [S.closing] ∧
      (first = false → ∃ c, (c = P.separator ∨ c = P.closing) ∧
        (forms.text S ++ [S.closing]).head? = some c) ∧
      ∀ pos, sameShapes K items (forms.nodes S pos) = true ∧
        ∀ path' index', validateItems K depth path' index' (forms.nodes S pos) = .ok () := by
  match items with
  | [] =>
    exact ⟨.nil, rfl, trivial, fun _ => ⟨P.closing, Or.inr rfl, by rw [hP.closing]; rfl⟩,
      fun pos => ⟨rfl, fun _ _ => rfl⟩⟩
  | item :: items =>
    rw [validateItems] at hvalid
    cases hitem : item.validateAt K (depth + 1) (path ++ "[" ++ toString index ++ "]") with
    | error e =>
      rw [hitem] at hvalid
      cases hvalid
    | ok _ =>
      rw [hitem] at hvalid
      obtain ⟨form, hprint, hform, hread⟩ := item.printInto_form hK hP hrange.1 hitem
      obtain ⟨forms, hprints, hforms, hends, hreads⟩ :=
        printItems_form hK hP items hdepth false hrange.2 hvalid
      rw [show MAX_DEPTH + 1 - (depth + 1) = MAX_DEPTH - depth by omega] at hform
      refine ⟨.cons (if first then [] else [P.separator]) form forms, ?_, ⟨?_, hform, ?_, hforms⟩,
        ?_, fun pos => ⟨?_, fun path' index' => ?_⟩⟩
      · rw [printItems, hprint]
        simp only [hprints]
        rfl
      · cases first with
        | true => exact hP.first
        | false => exact hP.next
      · obtain ⟨c, hc, hhead⟩ := hends rfl
        rw [hhead]
        exact hP.ends form c hc
      · rintro rfl
        exact ⟨P.separator, Or.inl rfl, rfl⟩
      · rw [Items.nodes, sameShapes, (hread _).1, (hreads _).1]
        rfl
      · rw [Items.nodes, validateItems, (hread _).2]
        exact (hreads _).2 path' _

end

mutual

/-- Trees of the same shape are written alike. -/
theorem Node.printInto_sameShape (hP : P.Writes K S) (node node' : Node F Dims) {text : Text}
    (hshape : node.sameShape K node' = true) (hprint : node.printInto P = .ok text) :
    node'.printInto P = .ok text := by
  match node, node' with
  | .atom kind span, .atom kind' span' => exact hP.shape hshape hprint
  | .list items span, .list items' span' =>
    rw [Node.printInto] at hprint ⊢
    cases hitems : printItems P true items with
    | error e =>
      rw [hitems] at hprint
      cases hprint
    | ok inner =>
      rw [hitems] at hprint
      rw [printItems_sameShapes hP items items' hshape hitems]
      exact hprint
  | .atom _ _, .list _ _ => cases hshape
  | .list _ _, .atom _ _ => cases hshape

theorem printItems_sameShapes (hP : P.Writes K S) (items items' : List (Node F Dims))
    {first : Bool} {text : Text} (hshape : sameShapes K items items' = true)
    (hprint : printItems P first items = .ok text) : printItems P first items' = .ok text := by
  match items, items' with
  | [], [] => exact hprint
  | item :: items, item' :: items' =>
    rw [sameShapes, Bool.and_eq_true] at hshape
    rw [printItems] at hprint ⊢
    cases hitem : item.printInto P with
    | error e =>
      rw [hitem] at hprint
      cases hprint
    | ok inner =>
      rw [hitem] at hprint
      rw [item.printInto_sameShape hP item' hshape.1 hitem]
      dsimp only at hprint ⊢
      cases hitems : printItems P false items with
      | error e =>
        rw [hitems] at hprint
        cases hprint
      | ok rest =>
        rw [hitems] at hprint
        rw [printItems_sameShapes hP items items' hshape.2 hitems]
        exact hprint
  | [], _ :: _ => cases hshape
  | _ :: _, [] => cases hshape

end

/-- A valid tree is printed, and read back as a valid tree of the same shape. -/
theorem printChecked_parse (hK : Documented K) (hP : P.Writes K S)
    {parse : Text → Except IrError (Node F Dims)}
    (hparse : ∀ form : Form (Atom F Dims), form.Valid S (MAX_DEPTH + 1) →
      (form.node S 0).validate K = .ok () → parse (form.text S) = .ok (form.node S 0))
    {node : Node F Dims} (hrange : node.InRange) (hvalid : node.validate K = .ok ()) :
    ∃ text tree, printChecked P K node = .ok text ∧ parse text = .ok tree ∧
      node.sameShape K tree = true ∧ tree.validate K = .ok () := by
  obtain ⟨form, hprint, hform, hread⟩ := node.printInto_form hK hP hrange hvalid
  refine ⟨form.text S, form.node S 0, ?_, hparse form hform ((hread 0).2 "$"), (hread 0).1,
    (hread 0).2 "$"⟩
  rw [printChecked, hvalid]
  exact hprint

/-- A valid tree of the same shape is printed as the same text. -/
theorem printChecked_sameShape (hP : P.Writes K S) {node tree : Node F Dims} {text : Text}
    (hshape : node.sameShape K tree = true) (hvalid : tree.validate K = .ok ())
    (h : printChecked P K node = .ok text) : printChecked P K tree = .ok text := by
  rw [printChecked] at h ⊢
  rw [hvalid]
  cases hnode : node.validate K with
  | error e =>
    rw [hnode] at h
    cases h
  | ok _ =>
    rw [hnode] at h
    exact node.printInto_sameShape hP tree hshape h

end Printing

section Syntaxes

variable {K : Codec F Dims}

/-- Atoms of one shape differ in the spelling of a quantity only. -/
theorem Atom.eq_of_sameShape (hK : Documented K) {a b : Atom F Dims}
    (h : a.sameShape K b = true) : a = b ∨
      ∃ value dims text text', a = .qty value dims text ∧ b = .qty value dims text' := by
  have hbits : ∀ {x y}, (K.toBits x == K.toBits y) = true → x = y :=
    fun h => hK.bits (beq_iff_eq.mp h)
  cases a <;> cases b <;> first | cases h | skip
  all_goals simp only [Atom.sameShape, Bool.and_eq_true, beq_iff_eq] at h
  case float.float x y => exact Or.inl (congrArg _ (hK.bits h))
  case qty.qty x dims text y dims' text' =>
    obtain ⟨hvalue, rfl⟩ := h
    rw [hK.bits hvalue]
    exact Or.inr ⟨y, dims, text, text', rfl, rfl⟩
  all_goals simp_all

theorem Sexpr.printAtom_sameShape (hK : Documented K) {span span' : Span} {a b : Atom F Dims}
    {text : Text} (hshape : a.sameShape K b = true) (h : Sexpr.printAtom K span a = .ok text) :
    Sexpr.printAtom K span' b = .ok text := by
  have hqty : ∀ {value dims}, canonicalQuantityText K value dims span = .ok text →
      canonicalQuantityText K value dims span' = .ok text := fun {value dims} h =>
    @Placed.of_ok _ _ (canonicalQuantityText_placed K value dims) "" span _ h "" span'
  obtain rfl | ⟨value, dims, _, _, rfl, rfl⟩ := Atom.eq_of_sameShape hK hshape
  · cases a with
    | qty => exact hqty h
    | _ => exact h
  · exact hqty h

theorem Json.printAtom_sameShape (hK : Documented K) {span span' : Span} {a b : Atom F Dims}
    {text : Text} (hshape : a.sameShape K b = true) (h : Json.printAtom K span a = .ok text) :
    Json.printAtom K span' b = .ok text := by
  have hqty : ∀ {value dims}, (canonicalQuantityText K value dims span).map
      (fun text => Json.object "q" (Json.printJsonString text)) = .ok text →
      (canonicalQuantityText K value dims span').map
        (fun text => Json.object "q" (Json.printJsonString text)) = .ok text :=
    fun {value dims} h => @Placed.of_ok _ _
      (placed_map (canonicalQuantityText_placed K value dims) _) "" span _ h "" span'
  obtain rfl | ⟨value, dims, _, _, rfl, rfl⟩ := Atom.eq_of_sameShape hK hshape
  · cases a with
    | qty => exact hqty h
    | _ => exact h
  · exact hqty h

theorem sexpr_writes (hK : Documented K) :
    (Sexpr.layout K).Writes K (Sexpr.grammar K.toReaders) where
  opening := rfl
  closing := rfl
  atom := Sexpr.printAtom_leaf hK
  shape := Sexpr.printAtom_sameShape hK
  first := fun pos _ hrest => Sexpr.skipFrom_settled hrest pos
  next := fun pos _ hrest => Sexpr.skipFrom_settled hrest (pos + 1)
  trail := fun pos _ hrest => Sexpr.skipFrom_settled hrest pos
  ends := by
    intro form c hc
    cases form with
    | leaf text kind =>
      right
      rintro x ⟨⟩
      obtain rfl | rfl := hc <;> rfl
    | list items trail => trivial

theorem json_writes (hK : Documented K) :
    (Json.layout K).Writes K (Json.grammar K.toReaders) where
  opening := rfl
  closing := rfl
  atom := Json.printAtom_tagged hK
  shape := Json.printAtom_sameShape hK
  first := fun _ hc => absurd hc List.not_mem_nil
  next := ⟨[], [], fun _ hc => absurd hc List.not_mem_nil, fun _ hc => absurd hc List.not_mem_nil,
    rfl⟩
  trail := fun _ hc => absurd hc List.not_mem_nil
  ends := fun _ _ _ => trivial

/-- A tree that is printed in both syntaxes, read back from each of them as its shape, and
printed as the same two texts again. -/
def Isomorphic (K : Codec F Dims) (node : Node F Dims) : Prop :=
  ∃ sexpr json fromSexpr fromJson,
    Sexpr.print K node = .ok sexpr ∧ Json.print K node = .ok json ∧
    Sexpr.parse K sexpr = .ok fromSexpr ∧ Json.parse K json = .ok fromJson ∧
    ∀ tree, tree = fromSexpr ∨ tree = fromJson → node.sameShape K tree = true ∧
      Sexpr.print K tree = .ok sexpr ∧ Json.print K tree = .ok json

/-- The two syntaxes are isomorphic on valid trees. -/
theorem syntaxes_isomorphic (hK : Documented K) {node : Node F Dims} (hrange : node.InRange)
    (hvalid : node.validate K = .ok ()) : Isomorphic K node := by
  obtain ⟨sexpr, fromSexpr, hsexpr, hparse, hshape, hchecked⟩ :=
    printChecked_parse hK (sexpr_writes hK) (fun form => parse_sexpr_form K) hrange hvalid
  obtain ⟨json, fromJson, hjson, hparse', hshape', hchecked'⟩ :=
    printChecked_parse hK (json_writes hK) (fun form => parse_json_form K) hrange hvalid
  refine ⟨sexpr, json, fromSexpr, fromJson, hsexpr, hjson, hparse, hparse', ?_⟩
  rintro tree (rfl | rfl)
  · exact ⟨hshape, printChecked_sameShape (sexpr_writes hK) hshape hchecked hsexpr,
      printChecked_sameShape (json_writes hK) hshape hchecked hjson⟩
  · exact ⟨hshape', printChecked_sameShape (sexpr_writes hK) hshape' hchecked' hsexpr,
      printChecked_sameShape (json_writes hK) hshape' hchecked' hjson⟩

/-- Readers and writers of the one number 1.0, bare and in kilograms. -/
def unitCodec : Codec Unit Dims where
  parseF64 text := if text = "1.0".toList then some () else none
  isFinite _ := true
  parseQty text := if text = "1.0kg".toList then .ok ((), ⟨0, 1, 0, 0, 0, 0⟩) else .error "unknown"
  debug := String.ofList
  toBits _ := 0x3FF0000000000000
  debugF64 _ := "1.0".toList
  unitText := Dims.canonicalUnit

theorem unitCodec_documented : Documented unitCodec where
  bits := fun _ _ _ => rfl
  unit := fun _ => rfl
  debug := fun _ _ => by
    refine ⟨⟨false, 1, ['0'], none, by simp, by simp⟩, ?_⟩
    simp [unitCodec, FloatText.text, FloatText.tail, signText, decimalText, radixDigits, digitChar]
  parse_debug := fun _ _ => rfl
  accepts := by
    intro text f h
    left
    simp only [unitCodec] at h
    split_ifs at h with htext
    subst htext
    simp [Json.isNumberScalar]

/-- A program with an atom of every kind. -/
def studyTree : Node Unit Dims :=
  .list ([.symbol "study".toList, .str "a\"b\n".toList, .seed 0xF00D,
    .count (.fractional ⟨true, 15, -1⟩) .kib, .count (.exact 20) .b, .keyword "mass".toList,
    .qty () ⟨0, 1, 0, 0, 0, 0⟩ "1.0kg".toList, .int (-7), .float ()].map
      fun kind => .atom kind ⟨0, 0⟩) ⟨0, 0⟩

theorem syntaxes_isomorphic_study : Isomorphic unitCodec studyTree := by
  apply syntaxes_isomorphic unitCodec_documented
  · simp only [studyTree, List.map_cons, List.map_nil, Node.InRange, itemsInRange, Atom.InRange]
    refine ⟨trivial, trivial, by decide, ?_, by decide, trivial, trivial, by decide, trivial, trivial⟩
    exact ⟨⟨⟨by decide, by decide⟩, by decide⟩, by decide⟩
  · rfl

end Syntaxes

end FrankenSim.Ir
