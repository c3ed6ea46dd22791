import Soprano.Library.Template
import Soprano.Virtuoso.SameQuad

/-! The places of the parameters in the text of `addStatement`, and the parameters that are bound. -/

namespace Soprano

namespace Virtuoso

open ODBC Template VirtuosoModel

/-- A parameter that `SQLBindParameter` binds. -/
inductive SqlParameter where
  | short (n : Int16)
  | chars (bytes : QByteArray)
deriving DecidableEq

/-- The calls of `SQLBindParameter` for a node, in their order. -/
def sqlParameters (p : Parameter) : List SqlParameter :=
  [.short p.mode, .chars p.value, .chars p.dtOrLang]

/-- The characters of a text, and its placeholders: a `??` is one unless it stands in the brackets of an
IRI. -/
def placeholders : Bool → QString → List (Option Char)
  | _, [] => []
  | true, c :: text => some c :: placeholders (c ≠ '>') text
  | false, '?' :: '?' :: text => none :: placeholders false text
  | false, c :: text => some c :: placeholders (c = '<') text

/-- A text with these characters and placeholders, whatever follows it. -/
def Parts (text : QString) (parts : List (Option Char)) : Prop :=
  ∀ rest, placeholders false (text ++ rest) = parts ++ placeholders false rest

theorem Parts.eq {text : QString} {parts : List (Option Char)} (h : Parts text parts) :
    placeholders false text = parts := by
  have hAll := h []
  rw [List.append_nil] at hAll
  exact hAll.trans (List.append_nil _)

theorem Parts.append {a b : QString} {p q : List (Option Char)} (ha : Parts a p) (hb : Parts b q) :
    Parts (a ++ b) (p ++ q) := by
  intro rest
  rw [List.append_assoc, ha, hb, List.append_assoc]

theorem Parts.placeholder : Parts ['?', '?'] [none] := fun _ => rfl

theorem Parts.known {text : QString} (h : ∀ c ∈ text, c ≠ '?' ∧ c ≠ '<') :
    Parts text (text.map some) := by
  intro rest
  induction text with
  | nil => rfl
  | cons c text ih =>
    obtain ⟨hMark, hBracket⟩ := h c List.mem_cons_self
    rw [List.cons_append, placeholders.eq_4 _ _ (by rintro _ rfl; exact absurd rfl hMark)]
    simp only [hBracket, decide_false, ih fun d hd => h d (List.mem_cons_of_mem c hd), List.map_cons,
      List.cons_append]

theorem Parts.letters {text : QString} (h : text.all (fun c => c != '?' && c != '<') = true) :
    Parts text (text.map some) := .known (by simpa using h)

/-- A bracket closes an IRI, if one is open: what stands behind it has its own parts. -/
theorem placeholders_append_bracket (inside : Bool) (text rest : QString) :
    placeholders inside (text ++ '>' :: rest) =
      placeholders inside (text ++ ['>']) ++ placeholders false rest := by
  induction inside, text using placeholders.induct with
  | case1 inside => cases inside <;> rfl
  | case2 c text ih => simp only [List.cons_append, placeholders, ih]
  | case3 text ih => simp only [List.cons_append, placeholders, ih]
  | case4 c text hMark ih =>
    have hNext : ∀ behind text', c = '?' → text ++ '>' :: behind = '?' :: text' → False := by
      intro behind text' hc hText
      cases text with
      | nil => cases hText
      | cons d text =>
        cases hText
        exact hMark text hc rfl
    rw [List.cons_append, placeholders.eq_4 _ _ (hNext rest), List.cons_append,
      placeholders.eq_4 _ _ (hNext []), ih, List.cons_append]

/-- What a text is made of, if it has no placeholders. -/
theorem placeholders_of_holes {inside : Bool} {text : QString} (h : holes (placeholders inside text) = 0) :
    placeholders inside text = text.map some := by
  induction inside, text using placeholders.induct with
  | case1 inside => cases inside <;> rfl
  | case2 c text ih =>
    rw [placeholders, holes_some] at h
    rw [placeholders, ih h, List.map_cons]
  | case3 text ih =>
    rw [placeholders, holes_none] at h
    cases h
  | case4 c text hMark ih =>
    rw [placeholders.eq_4 _ _ hMark, holes_some] at h
    rw [placeholders.eq_4 _ _ hMark, ih h, List.map_cons]

section Qt

variable [Qt] {typeHash : TypeHash} {fakeBooleans : Bool} {s : Statement}

/-! ### Nodes -/

/-- The parameters that `Connection::execute` binds, in their order. -/
def bindings (params : List Node) : List SqlParameter :=
  (params.filterMap parameter).flatMap sqlParameters

/-- What stands before the parameters of a call. -/
def callName : QString := "bif:__rdf_long_from_batch_params(".toList

/-- The characters and placeholders of a call. -/
def callParts : List (Option Char) :=
  callName.map some ++ [none, some ',', none, some ',', none, some ')']

/-- The call that gets a node from its parameters. -/
def call (p : Parameter) : List (Char ⊕ SqlParameter) :=
  callName.map .inl ++ [.inr (.short p.mode), .inl ',', .inr (.chars p.value), .inl ',',
    .inr (.chars p.dtOrLang), .inl ')']

/-- What has to stand in the place of a node: the call with the node's own parameters, or the blank node
as it is written. -/
def place (quote : QString) (node : Node) : List (Char ⊕ SqlParameter) :=
  match parameter node with
  | some p => quote.map .inl ++ (call p ++ quote.map .inl)
  | none => (nodeToN3 [] node).1.map .inl

/-- The characters and placeholders that are written for a node. -/
def nodeParts (quote : QString) (node : Node) : List (Option Char) :=
  if node.isBlank then placeholders false (nodeToN3 [] node).1
  else quote.map some ++ (callParts ++ quote.map some)

/-- The number of placeholders that the identifier of a blank node brings. -/
def stray (node : Node) : Nat :=
  if node.isBlank then holes (placeholders false (nodeToN3 [] node).1) else 0

omit [Qt] in
theorem parts_batchParams : Parts batchParams callParts := by
  have hName : Parts callName (callName.map some) := Parts.letters (by decide)
  have hComma : Parts [','] ([','].map some) := Parts.letters (by decide)
  have hEnd : Parts [')'] ([')'].map some) := Parts.letters (by decide)
  exact hName.append (.append .placeholder (.append hComma (.append .placeholder
    (.append hComma (.append .placeholder hEnd)))))

theorem parts_blank {id : QString} (h : id.isEmpty = false) :
    Parts (nodeToN3 typeHash (.blank id h)).1
      (placeholders false (nodeToN3 typeHash (.blank id h)).1) := by
  intro rest
  show placeholders false ('<' :: (Node.blankToN3 id ++ ['>'] ++ rest)) =
    placeholders false ('<' :: (Node.blankToN3 id ++ ['>'])) ++ placeholders false rest
  rw [List.append_assoc]
  exact congrArg (some '<' :: ·) (placeholders_append_bracket true (Node.blankToN3 id) rest)

variable (typeHash) in
/-- What is written for a node has its parts. -/
theorem parts_node {node : Node} (h : node.isValid = true) (quote : QString)
    (hQuote : ∀ c ∈ quote, c ≠ '?' ∧ c ≠ '<') (varText : QString) :
    Parts (termPattern typeHash varText (quote ++ (batchParams ++ quote)) (!node.isBlank) node).1
      (nodeParts quote node) := by
  unfold termPattern nodeParts
  rw [if_pos h]
  cases hBlank : node.isBlank with
  | true =>
    cases node with
    | blank id hId => exact parts_blank hId
    | _ => cases hBlank
  | false => exact (Parts.known hQuote).append (parts_batchParams.append (Parts.known hQuote))

theorem holes_node {node : Node} (h : node.isValid = true) (quote : QString) :
    holes (nodeParts quote node) = (bindings (boundNodes node)).length + stray node := by
  unfold nodeParts bindings boundNodes stray
  cases hBlank : node.isBlank with
  | true => simp
  | false =>
    obtain ⟨p, hp⟩ := isSome_parameter h hBlank
    simp [hp, callParts, sqlParameters]

omit [Qt] in
theorem fill_call (p : Parameter) : fill callParts (sqlParameters p) = some (call p) :=
  fill_append (fill_known callName) rfl

/-- The parameters of a node fill its own place. -/
theorem fill_node {node : Node} (h : node.isValid = true) (hStray : stray node = 0) (quote : QString) :
    fill (nodeParts quote node) (bindings (boundNodes node)) = some (place quote node) := by
  unfold nodeParts bindings boundNodes place
  unfold stray at hStray
  cases hBlank : node.isBlank with
  | true =>
    rw [hBlank, if_pos rfl] at hStray
    have hNone : parameter node = none := by
      cases node with
      | blank => rfl
      | _ => cases hBlank
    simp only [if_true, placeholders_of_holes hStray, List.filterMap_nil, List.flatMap_nil, hNone, fill_known]
  | false =>
    obtain ⟨p, hp⟩ := isSome_parameter h hBlank
    have hQuote := fill_known (β := SqlParameter) quote
    have hFill := fill_append hQuote (fill_append (fill_call p) hQuote)
    simpa [hp] using hFill

omit [Qt] in
theorem holes_inside {text : QString} (h : '>' ∉ text) (rest : QString) :
    holes (placeholders true (text ++ rest)) = holes (placeholders true rest) := by
  induction text with
  | nil => rfl
  | cons c text ih =>
    rw [List.mem_cons, not_or] at h
    simp [placeholders, Ne.symm h.1, ih h.2]

/-- An identifier without a bracket brings no placeholder. -/
theorem stray_of_notMem {id : QString} (hId : id.isEmpty = false) (h : '>' ∉ id) :
    stray (.blank id hId) = 0 := by
  have hText : (nodeToN3 [] (.blank id hId)).1 = '<' :: (('_' :: ':' :: id) ++ ['>']) := by
    show '<' :: (Node.blankToN3 id ++ ['>']) = _
    rw [Node.blankToN3_eq hId]
  have hInside : '>' ∉ '_' :: ':' :: id := by simpa using h
  show holes (placeholders false (nodeToN3 [] (.blank id hId)).1) = 0
  rw [hText]
  exact holes_inside hInside ['>']

/-! ### Statements -/

theorem length_boundNodes_le (node : Node) : (boundNodes node).length ≤ 1 := by
  unfold boundNodes
  split
  · exact Nat.zero_le 1
  · exact Nat.le_refl 1

/-- `Connection::execute` has variables for all nodes that `addStatement` passes. -/
theorem length_paramNodes_le (h : s.isValid = true) : (paramNodes s).length ≤ 4 := by
  have hContext := length_boundNodes_le (withDefaultGraph s).context
  have hSubject := length_boundNodes_le s.subject
  have hPredicate := length_boundNodes_le s.predicate
  have hObject := length_boundNodes_le s.object
  rw [paramNodes_of_isValid h]
  simp only [List.length_append]
  omega

/-- The graph pattern with each node in its own place. -/
def intended (s : Statement) : List (Char ⊕ SqlParameter) :=
  "graph ".toList.map .inl ++ (place [] (withDefaultGraph s).context ++
    (" \x7b ".toList.map .inl ++ (place ['\x60'] s.subject ++ ([' '].map .inl ++
      (place ['\x60'] s.predicate ++ ([' '].map .inl ++ (place ['\x60'] s.object ++
        " . \x7d".toList.map .inl)))))))

/-- The parameters that are bound for the nodes of `addStatement` take the placeholders of its graph
pattern, each of them its own. -/
def Aligned (typeHash : TypeHash) (fakeBooleans : Bool) (s : Statement) : Prop :=
  fill (placeholders false (statementToConstructGraphPattern typeHash fakeBooleans (withDefaultGraph s)
    true true).1) (bindings (paramNodes s)) = some (intended s)

/-- The characters and placeholders of the graph pattern. -/
def patternParts (s : Statement) : List (Option Char) :=
  "graph ".toList.map some ++ (nodeParts [] (withDefaultGraph s).context ++
    (" \x7b ".toList.map some ++ (nodeParts ['\x60'] s.subject ++ ([' '].map some ++
      (nodeParts ['\x60'] s.predicate ++ ([' '].map some ++ (nodeParts ['\x60'] s.object ++
        " . \x7d".toList.map some)))))))

theorem fst_insertPattern (h : s.isValid = true) :
    (statementToConstructGraphPattern typeHash fakeBooleans (withDefaultGraph s) true true).1 =
      "graph ".toList ++ ((termTexts typeHash fakeBooleans s .insert).graph ++ (" \x7b ".toList ++
        ((termTexts typeHash fakeBooleans s .insert).subject ++ ([' '] ++
          ((termTexts typeHash fakeBooleans s .insert).predicate ++ ([' '] ++
            ((termTexts typeHash fakeBooleans s .insert).object ++ " . \x7d".toList))))))) := by
  obtain ⟨-, -, hContext⟩ := isLiteral_of_isValid h
  simp only [statementToConstructGraphPattern, if_true, snd_termPattern hContext,
    triplePattern_withDefaultGraph, Bool.true_and, fst_triplePattern h (v := .insert) (p := true) rfl,
    List.append_assoc, List.cons_append, List.nil_append]
  rfl

theorem placeholders_insertPattern (h : s.isValid = true) :
    placeholders false (statementToConstructGraphPattern typeHash fakeBooleans (withDefaultGraph s)
      true true).1 = patternParts s := by
  obtain ⟨hSubject, hPredicate, hObject⟩ := valid_nodes h
  have hQuote : ∀ c ∈ ['\x60'], c ≠ '?' ∧ c ≠ '<' := by simp
  have hGraph : Parts "graph ".toList ("graph ".toList.map some) := .letters (by decide)
  have hOpen : Parts " \x7b ".toList (" \x7b ".toList.map some) := .letters (by decide)
  have hSpace : Parts [' '] ([' '].map some) := .letters (by decide)
  have hClose : Parts " . \x7d".toList (" . \x7d".toList.map some) := .letters (by decide)
  have hContext :=
    parts_node typeHash (isValid_context_withDefaultGraph s) [] (List.forall_mem_nil _) "?g".toList
  rw [List.append_nil, List.nil_append] at hContext
  have hParts := hGraph.append (hContext.append (hOpen.append
    ((parts_node typeHash hSubject _ hQuote "?s".toList).append (hSpace.append
      ((parts_node typeHash hPredicate _ hQuote "?p".toList).append (hSpace.append
        ((parts_node typeHash hObject _ hQuote "?o".toList).append hClose)))))))
  rw [fst_insertPattern h, termTexts_insert h]
  exact hParts.eq

theorem bindings_paramNodes (h : s.isValid = true) :
    bindings (paramNodes s) = bindings (boundNodes (withDefaultGraph s).context) ++
      (bindings (boundNodes s.subject) ++ (bindings (boundNodes s.predicate) ++
        bindings (boundNodes s.object))) := by
  rw [paramNodes_of_isValid h]
  simp only [bindings, List.filterMap_append, List.flatMap_append]

/-- Only a subject or an object is blank. -/
theorem stray_of_isValid (h : s.isValid = true) :
    stray (withDefaultGraph s).context = 0 ∧ stray s.predicate = 0 := by
  obtain ⟨-, ⟨p, hp, hPredicate⟩, -, ⟨g, hg, hContext⟩⟩ := nodes_of_isValid h
  rw [hPredicate, hContext]
  exact ⟨rfl, rfl⟩

/-- There are as many placeholders as parameters, but for those that identifiers bring. -/
theorem holes_patternParts (h : s.isValid = true) :
    holes (patternParts s) = (bindings (paramNodes s)).length + (stray s.subject + stray s.object) := by
  obtain ⟨hSubject, hPredicate, hObject⟩ := valid_nodes h
  obtain ⟨hContextStray, hPredicateStray⟩ := stray_of_isValid h
  rw [bindings_paramNodes h]
  unfold patternParts
  simp only [holes_append, holes_known, holes_node hSubject, holes_node hPredicate,
    holes_node hObject, holes_node (isValid_context_withDefaultGraph s), hPredicateStray, hContextStray,
    List.length_append]
  omega

theorem fill_patternParts (h : s.isValid = true) (hSubject : stray s.subject = 0)
    (hObject : stray s.object = 0) :
    fill (patternParts s) (bindings (paramNodes s)) = some (intended s) := by
  obtain ⟨hSubjectValid, hPredicateValid, hObjectValid⟩ := valid_nodes h
  obtain ⟨hContext, hPredicate⟩ := stray_of_isValid h
  have hText : ∀ text : QString, fill (text.map some) ([] : List SqlParameter) = some (text.map .inl) :=
    fill_known
  have hFill := fill_append (hText "graph ".toList) (fill_append
    (fill_node (isValid_context_withDefaultGraph s) hContext []) (fill_append (hText " \x7b ".toList)
      (fill_append (fill_node hSubjectValid hSubject ['\x60']) (fill_append (hText [' '])
        (fill_append (fill_node hPredicateValid hPredicate ['\x60']) (fill_append (hText [' '])
          (fill_append (fill_node hObjectValid hObject ['\x60']) (hText " . \x7d".toList))))))))
  rw [bindings_paramNodes h]
  simp only [List.nil_append, List.append_nil] at hFill
  exact hFill

/-- The placeholders of a valid statement are the parameters that are bound for it, in number and order,
and each node gets its own, if and only if the identifiers of its blank nodes bring no placeholders. -/
theorem aligned_iff (typeHash : TypeHash) (fakeBooleans : Bool) (s : Statement) (h : s.isValid = true) :
    Aligned typeHash fakeBooleans s ↔ stray s.subject = 0 ∧ stray s.object = 0 := by
  unfold Aligned
  rw [placeholders_insertPattern h]
  constructor
  · intro hFill
    have hHoles := (holes_patternParts h).symm.trans (holes_of_fill hFill)
    omega
  · rintro ⟨hSubject, hObject⟩
    exact fill_patternParts h hSubject hObject

end Qt

section Example

local instance placeholdersQt : Qt := asciiQt

/-- A statement about a blank node. -/
def blankStatement (id : QString) : Statement :=
  { exampleStatement with subject := .ofIdentifier id }

theorem aligned_blank : Aligned [] true (blankStatement "a??".toList) :=
  (aligned_iff [] true _ (by decide)).mpr ⟨by decide, by decide⟩

/-- The identifier closes its bracket, and a placeholder behind it takes a parameter. -/
theorem not_aligned : (blankStatement "a>??".toList).isValid = true ∧
    ¬ Aligned [] true (blankStatement "a>??".toList) := by
  have hValid : (blankStatement "a>??".toList).isValid = true := by decide
  have hStray : stray (blankStatement "a>??".toList).subject = 1 := by decide
  refine ⟨hValid, fun h => ?_⟩
  unfold Aligned at h
  rw [placeholders_insertPattern hValid] at h
  have hHoles := (holes_patternParts hValid).symm.trans (holes_of_fill h)
  omega

end Example

end Virtuoso

end Soprano
