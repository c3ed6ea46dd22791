import Soprano.Virtuoso.Errors
import Soprano.Virtuoso.Sparul

/-! Whether the operations on a statement address one quad. -/

namespace Soprano

namespace Virtuoso

open ODBC Sparul VirtuosoModel

section Qt

variable [Qt] {typeHash : TypeHash} {fakeBooleans : Bool} {s : Statement}

/-! ### What the operations send -/

/-- The text for the graph of a statement. -/
def graphText (typeHash : TypeHash) (s : Statement) : Verb → QString
  | .insert => (termPattern typeHash "?g".toList batchParams (!(withDefaultGraph s).context.isBlank)
      (withDefaultGraph s).context).1
  | .delete => (termPattern typeHash "?g".toList batchParams false (withDefaultGraph s).context).1
  | .ask => ((withDefaultGraph s).context.toN3 typeHash).1
  | .select => if s.context.isValid then (s.context.toN3 typeHash).1 else "?g".toList

/-- The texts for the terms of a statement. -/
def termTexts (typeHash : TypeHash) (fakeBooleans : Bool) (s : Statement) (v : Verb) : Quad QString where
  graph := graphText typeHash s v
  subject := (termPattern typeHash "?s".toList quotedBatchParams
    (decide (v = .insert) && !s.subject.isBlank) s.subject).1
  predicate := (termPattern typeHash "?p".toList quotedBatchParams (decide (v = .insert)) s.predicate).1
  object := (objectPattern typeHash fakeBooleans (decide (v = .insert)) s.object).1

/-- The parameters that are bound for a statement. -/
def boundParameters (s : Statement) : Verb → List Parameter
  | .insert => (paramNodes s).filterMap parameter
  | _ => []

/-- The quad that an operation addresses. -/
def addressed (typeHash : TypeHash) (fakeBooleans : Bool) (s : Statement) (v : Verb) : Option (Quad Term) :=
  denotes (termTexts typeHash fakeBooleans s v) (boundParameters s v)

/-- The operations send the terms of one quad: `removeStatement` sends nothing about the virtual graph. -/
def SameTerms (typeHash : TypeHash) (fakeBooleans : Bool) (s : Statement) : Prop :=
  ∃ quad, ∀ v, (v = .delete → s.context.uri ≠ openlinkVirtualGraph) →
    addressed typeHash fakeBooleans s v = some quad

theorem snd_toN3 {node : Node} (h : node.isLiteral = false) : (node.toN3 typeHash).2 = typeHash := by
  cases node with
  | literal value _ => cases h
  | _ => rfl

theorem snd_termPattern {node : Node} (h : node.isLiteral = false) (varText placeholder : QString)
    (parameterized : Bool) :
    (termPattern typeHash varText placeholder parameterized node).2 = typeHash := by
  have hN3 : (node.toN3 typeHash).2 = typeHash := snd_toN3 h
  unfold termPattern nodeToN3
  split
  · split
    · rfl
    · simp only
      split
      · exact hN3
      · exact hN3
  · rfl

/-- The nodes of a valid statement, with its graph. -/
theorem nodes_of_isValid (h : s.isValid = true) :
    ((∃ u hu, s.subject = .resource u hu) ∨ ∃ id hId, s.subject = .blank id hId) ∧
      (∃ u hu, s.predicate = .resource u hu) ∧ s.object.isValid = true ∧
      ∃ u hu, (withDefaultGraph s).context = .resource u hu := by
  have hResource : ∀ node : Node, node.isResource = true → ∃ u hu, node = .resource u hu := by
    intro node hNode
    cases node with
    | resource u hu => exact ⟨u, hu, rfl⟩
    | _ => cases hNode
  have hBlank : ∀ node : Node, node.isBlank = true → ∃ id hId, node = .blank id hId := by
    intro node hNode
    cases node with
    | blank id hId => exact ⟨id, hId, rfl⟩
    | _ => cases hNode
  unfold Statement.isValid withDefaultGraph at *
  split at h
  · rename_i hContext
    simp only [Bool.and_eq_true, Bool.or_eq_true] at h
    obtain ⟨⟨⟨hSubject, hPredicate⟩, hObject⟩, hGraph⟩ := h
    rw [if_pos hContext]
    exact ⟨hSubject.imp (hResource _) (hBlank _), hResource _ hPredicate, hObject, hResource _ hGraph⟩
  · rename_i hContext
    simp only [Bool.and_eq_true, Bool.or_eq_true] at h
    obtain ⟨⟨hSubject, hPredicate⟩, hObject⟩ := h
    rw [if_neg hContext]
    exact ⟨hSubject.imp (hResource _) (hBlank _), hResource _ hPredicate, hObject, _, _, rfl⟩

theorem valid_nodes (h : s.isValid = true) :
    s.subject.isValid = true ∧ s.predicate.isValid = true ∧ s.object.isValid = true := by
  obtain ⟨hSubject, ⟨_, _, hPredicate⟩, hObject, -⟩ := nodes_of_isValid h
  refine ⟨?_, by rw [hPredicate]; rfl, hObject⟩
  rcases hSubject with ⟨_, _, hEq⟩ | ⟨_, _, hEq⟩ <;> rw [hEq] <;> rfl

theorem isLiteral_of_isValid (h : s.isValid = true) :
    s.subject.isLiteral = false ∧ s.predicate.isLiteral = false ∧
      (withDefaultGraph s).context.isLiteral = false := by
  obtain ⟨⟨_, _, hSubject⟩ | ⟨_, _, hSubject⟩, ⟨_, _, hPredicate⟩, -, ⟨_, _, hContext⟩⟩ :=
    nodes_of_isValid h
  all_goals
    rw [hSubject, hPredicate, hContext]
    exact ⟨rfl, rfl, rfl⟩

theorem fst_triplePattern (h : s.isValid = true) {v : Verb} {p : Bool}
    (hVerb : p = decide (v = .insert)) :
    (triplePattern typeHash fakeBooleans s p).1 =
      (termTexts typeHash fakeBooleans s v).subject ++ ' ' ::
        ((termTexts typeHash fakeBooleans s v).predicate ++ ' ' ::
          (termTexts typeHash fakeBooleans s v).object) := by
  obtain ⟨hSubject, hPredicate, -⟩ := isLiteral_of_isValid h
  simp only [triplePattern, termTexts, snd_termPattern hSubject, snd_termPattern hPredicate, hVerb]

theorem snd_triplePattern (h : s.isValid = true) (parameterized : Bool) :
    (triplePattern typeHash fakeBooleans s parameterized).2 =
      (objectPattern typeHash fakeBooleans parameterized s.object).2 := by
  obtain ⟨hSubject, hPredicate, -⟩ := isLiteral_of_isValid h
  simp only [triplePattern, snd_termPattern hSubject, snd_termPattern hPredicate]

@[simp] theorem subject_withDefaultGraph (s : Statement) : (withDefaultGraph s).subject = s.subject := by
  unfold withDefaultGraph
  split <;> rfl

@[simp] theorem predicate_withDefaultGraph (s : Statement) :
    (withDefaultGraph s).predicate = s.predicate := by
  unfold withDefaultGraph
  split <;> rfl

@[simp] theorem object_withDefaultGraph (s : Statement) : (withDefaultGraph s).object = s.object := by
  unfold withDefaultGraph
  split <;> rfl

theorem triplePattern_withDefaultGraph (parameterized : Bool) :
    triplePattern typeHash fakeBooleans (withDefaultGraph s) parameterized =
      triplePattern typeHash fakeBooleans s parameterized := by
  simp [triplePattern]

omit [Qt] in
/-- A command and the graph pattern behind it. -/
theorem request_of_pattern {v : Verb} (command : QString) {texts : Quad QString}
    (hHead : v.head = command ++ "graph ".toList) (hOpening : v.opening = "\x7b ".toList) :
    command ++ ("graph ".toList ++ texts.graph ++ " \x7b ".toList ++ (texts.subject ++ ' ' ::
      (texts.predicate ++ ' ' :: texts.object)) ++ " . \x7d".toList) = v.request texts := by
  have hOpen : " \x7b ".toList = ' ' :: "\x7b ".toList := by decide
  have hClose : " . \x7d".toList = ' ' :: ". \x7d".toList := by decide
  rw [Verb.request, hHead, hOpening, hOpen, hClose]
  simp only [List.append_assoc, List.cons_append, List.nil_append]

omit [Qt] in
/-- A query, with its graph and the triple behind it. -/
theorem request_of_query {v : Verb} (query : QString) {texts : Quad QString}
    (hHead : v.head = s_queryPrefix ++ query) (hOpening : v.opening = "where \x7b ".toList) :
    s_queryPrefix ++ (query ++ texts.graph ++ " where \x7b ".toList ++ (texts.subject ++ ' ' ::
      (texts.predicate ++ ' ' :: texts.object)) ++ " . \x7d".toList) = v.request texts := by
  have hOpen : " where \x7b ".toList = ' ' :: "where \x7b ".toList := by decide
  have hClose : " . \x7d".toList = ' ' :: ". \x7d".toList := by decide
  rw [Verb.request, hHead, hOpening, hOpen, hClose]
  simp only [List.append_assoc, List.cons_append, List.nil_append]

/-- The request of `addStatement`. -/
theorem insert_request (h : s.isValid = true) :
    "sparql insert into ".toList ++
        (statementToConstructGraphPattern typeHash fakeBooleans (withDefaultGraph s) true true).1 =
      Verb.insert.request (termTexts typeHash fakeBooleans s .insert) := by
  obtain ⟨-, -, hContext⟩ := isLiteral_of_isValid h
  rw [← request_of_pattern "sparql insert into ".toList (by decide) rfl]
  simp only [statementToConstructGraphPattern, if_true, snd_termPattern hContext,
    triplePattern_withDefaultGraph, Bool.true_and, fst_triplePattern h (v := .insert) (p := true) rfl]
  rfl

/-- The request of `removeStatement`. -/
theorem delete_request (h : s.isValid = true) :
    s_queryPrefix ++ ("delete from ".toList ++
        (statementToConstructGraphPattern typeHash fakeBooleans (withDefaultGraph s) true false).1) =
      Verb.delete.request (termTexts typeHash fakeBooleans s .delete) := by
  obtain ⟨-, -, hContext⟩ := isLiteral_of_isValid h
  rw [← request_of_pattern (s_queryPrefix ++ "delete from ".toList) (by decide) rfl,
    List.append_assoc]
  simp only [statementToConstructGraphPattern, if_true, snd_termPattern hContext,
    triplePattern_withDefaultGraph, Bool.false_and, fst_triplePattern h (v := .delete) (p := false) rfl]
  rfl

section Model

variable {S : Type} {model : VirtuosoModel S}

theorem isValid_context_withDefaultGraph (s : Statement) :
    (withDefaultGraph s).context.isValid = true := by
  unfold withDefaultGraph
  split
  · assumption
  · rfl

/-- The request of `containsStatement`. -/
theorem ask_request (h : s.isValid = true) :
    s_queryPrefix ++ (model.askQuery (withDefaultGraph s)).1 =
      Verb.ask.request (termTexts model.typeHash model.fakeBooleans s .ask) := by
  obtain ⟨-, -, hContext⟩ := isLiteral_of_isValid h
  rw [← request_of_query "ask from ".toList (by decide) rfl]
  simp only [askQuery, isValid_context_withDefaultGraph, if_true, contextToN3, snd_toN3 hContext,
    pattern, statementToConstructGraphPattern, Bool.false_eq_true, if_false,
    triplePattern_withDefaultGraph, fst_triplePattern h (v := .ask) (p := false) rfl]
  rfl

/-- The request of `listStatements` for a statement with a context. -/
theorem select_request (h : s.isValid = true) (hContext : s.context.isValid = true) :
    s_queryPrefix ++ (model.listQuery s).1 =
      Verb.select.request (termTexts model.typeHash model.fakeBooleans s .select) := by
  have hLiteral : s.context.isLiteral = false := by
    have := (isLiteral_of_isValid h).2.2
    rwa [withDefaultGraph, if_pos hContext] at this
  rw [← request_of_query "select * from ".toList (by decide) rfl]
  simp only [listQuery, hContext, if_true, contextToN3, snd_toN3 hLiteral, pattern,
    statementToConstructGraphPattern, Bool.false_eq_true, if_false,
    fst_triplePattern h (v := .select) (p := false) rfl, termTexts, graphText]

end Model

/-! ### What the texts stand for -/

omit [Qt] in
theorem isIriChar_encoded (u : QUrl) : u.encoded.all isIriChar = true := by
  refine List.all_eq_true.mpr fun c hc => ?_
  have hUrl := u.isUrlChar_of_mem hc
  simp only [isUrlChar, isIriChar, List.contains_cons, List.contains_nil, Bool.and_eq_true,
    decide_eq_true_eq, Bool.not_eq_true', Bool.or_eq_false_iff] at hUrl ⊢
  tauto

theorem readText_resource (uri : QUrl) (h : uri.isEmpty = false) :
    readText (nodeToN3 typeHash (.resource uri h)).1 = some (.term (.iri uri.encoded)) := by
  have hText : (nodeToN3 typeHash (.resource uri h)).1 = '<' :: (uri.encoded ++ ['>']) := by
    rw [← uri.fromLatin1_toEncoded]
    rfl
  rw [hText, readText_iri_iff]
  exact ⟨isIriChar_encoded uri, rfl⟩

theorem readText_blank {id : QString} (h : id.isEmpty = false) {t : TermText} :
    readText (nodeToN3 typeHash (.blank id h)).1 = some t ↔
      id.all isIriChar = true ∧ t = .term (.iri ('_' :: ':' :: id)) := by
  have hText : (nodeToN3 typeHash (.blank id h)).1 = '<' :: (('_' :: ':' :: id) ++ ['>']) := by
    show '<' :: (Node.blankToN3 id ++ ['>']) = _
    rw [Node.blankToN3_eq h]
  rw [hText, readText_iri_iff, List.all_cons, List.all_cons]
  rfl

theorem readText_plain (text : QString) {lang : LanguageTag} (h : lang.isEmpty = true) :
    readText (nodeToN3 typeHash (.literal (.plain text lang) rfl)).1 =
      some (.term (.plain text)) := by
  have hText : (nodeToN3 typeHash (.literal (.plain text lang) rfl)).1 =
      '"' :: (Escape.escape escapeLetter text ++ ['"']) := by
    show (Node.literalToN3 typeHash (.plain text lang)).1 = _
    simp only [Node.literalToN3, LiteralValue.isPlain, LiteralValue.language, h, if_true]
    rfl
  rw [hText, readText_eq_some]
  simpa using reads_plain text

variable (typeHash) in
/-- A literal with a language stands for one, if for anything. -/
theorem readText_language (text : QString) {lang : LanguageTag} (h : lang.isEmpty = false) :
    (∀ t, readText (nodeToN3 typeHash (.literal (.plain text lang) rfl)).1 = some t →
      t = .term (.lang text lang.toString)) ∧
    (isLangTag lang.toString = true →
      readText (nodeToN3 typeHash (.literal (.plain text lang) rfl)).1 =
        some (.term (.lang text lang.toString))) := by
  have hText : (nodeToN3 typeHash (.literal (.plain text lang) rfl)).1 =
      '"' :: (Escape.escape escapeLetter text ++ '"' :: '@' :: lang.toString) := by
    show (Node.literalToN3 typeHash (.plain text lang)).1 = _
    simp only [Node.literalToN3, LiteralValue.isPlain, LiteralValue.language, h, if_true,
      Bool.false_eq_true, if_false]
    rfl
  rw [hText]
  refine ⟨fun t ht => readText_lang ht, fun hTag => ?_⟩
  rw [readText_eq_some]
  simpa using reads_lang text hTag

theorem fst_literalToN3 {v : QVariant} {dtUri : QUrl} (h : StoredAs v dtUri) :
    (Node.literalToN3 typeHash (.typed v dtUri h)).1 = '"' :: (Escape.escape escapeLetter
      (LiteralValue.text v) ++ Node.typedSuffix ((typeHash.lookup v.type).getD dtUri.encoded)) := by
  have hType : (LiteralValue.typed v dtUri h).type = v.type := rfl
  simp only [Node.literalToN3, LiteralValue.isPlain, hType, Bool.false_eq_true, if_false]
  cases typeHash.lookup v.type with
  | some type => rfl
  | none =>
    simp only [LiteralValue.dataTypeUri, QUrl.fromLatin1_toEncoded]
    rfl

/-- The data type that is written for a typed literal is the one of the first literal of its type. -/
theorem readText_typed (history : List LiteralValue) {v : QVariant} {dtUri : QUrl}
    (h : StoredAs v dtUri) (hValid : (LiteralValue.typed v dtUri h).isValid = true) :
    ∃ written : QUrl, (typeFromDataTypeUri written).stored = v.type ∧
      (written = dtUri ↔ N3.FirstAgrees history (.typed v dtUri h)) ∧
      readText (nodeToN3 (N3.typeHashAfter history) (.literal (.typed v dtUri h) hValid)).1 =
        some (.term (.typed (LiteralValue.text v) written.encoded)) := by
  have hRead : ∀ written : QUrl,
      ((N3.typeHashAfter history).lookup v.type).getD dtUri.encoded = written.encoded →
      readText (nodeToN3 (N3.typeHashAfter history) (.literal (.typed v dtUri h) hValid)).1 =
        some (.term (.typed (LiteralValue.text v) written.encoded)) := by
    intro written hWritten
    show readText (Node.literalToN3 (N3.typeHashAfter history) (.typed v dtUri h)).1 = _
    rw [fst_literalToN3, hWritten, readText_eq_some]
    simpa using reads_typed (LiteralValue.text v) (isIriChar_encoded written)
  have hLookup := N3.lookup_typeHashAfter history v.type
  unfold N3.FirstAgrees
  rw [show (LiteralValue.typed v dtUri h).type = v.type from rfl]
  cases hFirst : N3.firstOfType history v.type with
  | none =>
    refine ⟨dtUri, h.1.symm, by simp, hRead dtUri ?_⟩
    rw [hLookup, hFirst]
    rfl
  | some first =>
    obtain ⟨-, hPlain, hType⟩ := N3.firstOfType_spec hFirst
    refine ⟨first.dataTypeUri, ?_, by simp [LiteralValue.isPlain, LiteralValue.dataTypeUri],
      hRead _ ?_⟩
    · cases first with
      | null => exact absurd (hType.trans h.1).symm (stored_ne _).1
      | plain => cases hPlain
      | typed w u hw => exact hw.1.symm.trans hType
    · rw [hLookup, hFirst]
      rfl

/-- The term that `addStatement` sends for a node. -/
def Inserted (node : Node) (t : Term) : Prop :=
  if node.isBlank then readText (nodeToN3 [] node).1 = some (.term t)
  else (parameter node).bind parameterTerm = some t

theorem isSome_parameter {node : Node} (hValid : node.isValid = true) (hBlank : node.isBlank = false) :
    ∃ p, parameter node = some p := by
  cases node with
  | empty => cases hValid
  | blank => cases hBlank
  | resource uri _ => exact ⟨_, rfl⟩
  | literal value _ =>
    unfold parameter
    simp only
    split
    · exact ⟨_, rfl⟩
    · split
      · exact ⟨_, rfl⟩
      · exact ⟨_, rfl⟩

/-- A node is written out if it is blank, and bound to its place otherwise. -/
theorem fills_node {node : Node} (hValid : node.isValid = true) {varText placeholder : QString}
    (hPlaceholder : readText placeholder = some .parameter) {params rest : List Parameter} {t : Term} :
    Fills ((if node.isBlank then [] else [node]).filterMap parameter ++ params)
        (termPattern typeHash varText placeholder (!node.isBlank) node).1 t rest ↔
      Inserted node t ∧ rest = params := by
  unfold Inserted termPattern
  rw [if_pos hValid]
  cases hBlank : node.isBlank with
  | true =>
    cases node with
    | blank id h =>
      simp only [Bool.not_true, Bool.false_eq_true, if_false, if_true, List.filterMap_nil,
        List.nil_append, Fills, readText_blank]
      constructor
      · rintro ⟨term, ⟨hLegal, rfl⟩, hFill⟩
        cases hFill
        exact ⟨⟨hLegal, rfl⟩, rfl⟩
      · rintro ⟨hText, rfl⟩
        exact ⟨_, hText, rfl⟩
    | _ => cases hBlank
  | false =>
    obtain ⟨p, hp⟩ := isSome_parameter hValid hBlank
    simp only [Bool.false_eq_true, if_false, Bool.not_false, if_true, hp, List.filterMap_cons_some hp,
      List.filterMap_nil, Option.bind_some, List.cons_append, List.nil_append]
    constructor
    · rintro ⟨term, hText, hFill⟩
      obtain rfl := Option.some.inj (hPlaceholder.symm.trans hText)
      obtain ⟨t', hTerm, hEq⟩ := Option.map_eq_some_iff.mp hFill
      cases hEq
      exact ⟨hTerm, rfl⟩
    · rintro ⟨hTerm, rfl⟩
      exact ⟨.parameter, hPlaceholder, by rw [fillTerm, hTerm]; rfl⟩

/-- The nodes that are bound. -/
def boundNodes (node : Node) : List Node := if node.isBlank then [] else [node]

theorem paramNodes_of_isValid (h : s.isValid = true) :
    paramNodes s = boundNodes (withDefaultGraph s).context ++ (boundNodes s.subject ++
      (boundNodes s.predicate ++ boundNodes s.object)) := by
  obtain ⟨hSubject, hPredicate, hObject⟩ := valid_nodes h
  obtain ⟨-, ⟨p, hp, hResource⟩, -, -⟩ := nodes_of_isValid h
  have hNode : ∀ node : Node, node.isValid = true →
      (if (node.isValid && !node.isBlank) = true then [node] else []) = boundNodes node := by
    intro node hValid
    rw [hValid, boundNodes]
    cases node.isBlank <;> rfl
  have hGraph : (if (s.context.isValid && !s.context.isBlank) = true then [s.context]
      else [defaultGraphNode]) = boundNodes (withDefaultGraph s).context := by
    unfold withDefaultGraph
    by_cases hContext : s.context.isValid = true
    · have hResource : s.context.isBlank = false := by
        obtain ⟨-, -, -, u, hu, hEq⟩ := nodes_of_isValid h
        rw [withDefaultGraph, if_pos hContext] at hEq
        rw [hEq]
        rfl
      rw [if_pos hContext, hContext, hResource, boundNodes, hResource]
      rfl
    · rw [if_neg hContext, Bool.eq_false_iff.mpr hContext]
      rfl
  unfold paramNodes
  rw [hGraph, hNode _ hSubject, hNode _ hObject, if_pos hPredicate, hResource]
  simp only [List.append_assoc]
  rfl

theorem rewritten_of_isBlank {node : Node} (h : node.isBlank = true) :
    rewritten fakeBooleans node = node := by
  cases node with
  | blank id _ => rfl
  | _ => cases h

theorem objectPattern_insert (object : Node) : objectPattern typeHash fakeBooleans true object =
    termPattern typeHash "?o".toList quotedBatchParams (!object.isBlank) object := by
  unfold objectPattern
  cases hBlank : object.isBlank with
  | true => simp [rewritten_of_isBlank hBlank]
  | false => simp

/-- `addStatement` writes the nodes that are not blank as places of parameters. -/
theorem termTexts_insert (h : s.isValid = true) : termTexts typeHash fakeBooleans s .insert =
    ⟨(termPattern typeHash "?g".toList batchParams (!(withDefaultGraph s).context.isBlank)
        (withDefaultGraph s).context).1,
      (termPattern typeHash "?s".toList quotedBatchParams (!s.subject.isBlank) s.subject).1,
      (termPattern typeHash "?p".toList quotedBatchParams (!s.predicate.isBlank) s.predicate).1,
      (termPattern typeHash "?o".toList quotedBatchParams (!s.object.isBlank) s.object).1⟩ := by
  have hPredicate : (!s.predicate.isBlank) = true := by
    obtain ⟨-, ⟨_, _, hEq⟩, -, -⟩ := nodes_of_isValid h
    rw [hEq]
    rfl
  simp [termTexts, graphText, objectPattern_insert, hPredicate]

/-- The terms of the quad that `addStatement` addresses. -/
theorem addressed_insert (h : s.isValid = true) {quad : Quad Term} :
    addressed typeHash fakeBooleans s .insert = some quad ↔
      Inserted (withDefaultGraph s).context quad.graph ∧ Inserted s.subject quad.subject ∧
        Inserted s.predicate quad.predicate ∧ Inserted s.object quad.object := by
  have hQuoted : readText quotedBatchParams = some .parameter :=
    readText_eq_some.mpr reads_quotedParameter
  have hParam : readText batchParams = some .parameter := readText_eq_some.mpr reads_parameter
  obtain ⟨hSubject, hPredicate, hObject⟩ := valid_nodes h
  have hNodes : boundParameters s .insert = (boundNodes (withDefaultGraph s).context).filterMap parameter ++
      ((boundNodes s.subject).filterMap parameter ++ ((boundNodes s.predicate).filterMap parameter ++
        ((boundNodes s.object).filterMap parameter ++ []))) := by
    rw [boundParameters, paramNodes_of_isValid h]
    simp only [List.filterMap_append, List.append_nil]
  rw [addressed, denotes_eq_some, termTexts_insert h, hNodes]
  simp only [boundNodes, fills_node (isValid_context_withDefaultGraph s) hParam]
  constructor
  · rintro ⟨p₁, p₂, p₃, ⟨hGraph, rfl⟩, hSubjectFills, hPredicateFills, hObjectFills⟩
    obtain ⟨hSubjectTerm, rfl⟩ := (fills_node hSubject hQuoted).mp hSubjectFills
    obtain ⟨hPredicateTerm, rfl⟩ := (fills_node hPredicate hQuoted).mp hPredicateFills
    exact ⟨hGraph, hSubjectTerm, hPredicateTerm, ((fills_node hObject hQuoted).mp hObjectFills).1⟩
  · rintro ⟨hGraph, hSubjectTerm, hPredicateTerm, hObjectTerm⟩
    exact ⟨_, _, _, ⟨hGraph, rfl⟩, (fills_node hSubject hQuoted).mpr ⟨hSubjectTerm, rfl⟩,
      (fills_node hPredicate hQuoted).mpr ⟨hPredicateTerm, rfl⟩,
      (fills_node hObject hQuoted).mpr ⟨hObjectTerm, rfl⟩⟩

/-- The terms of the quad that any other operation addresses. -/
theorem addressed_written (h : s.isValid = true) (hContext : s.context.isValid = true) {v : Verb}
    (hv : v ≠ .insert) {quad : Quad Term} :
    addressed typeHash fakeBooleans s v = some quad ↔
      readText (nodeToN3 typeHash s.context).1 = some (.term quad.graph) ∧
        readText (nodeToN3 typeHash s.subject).1 = some (.term quad.subject) ∧
        readText (nodeToN3 typeHash s.predicate).1 = some (.term quad.predicate) ∧
        readText (objectPattern typeHash fakeBooleans false s.object).1 = some (.term quad.object) := by
  obtain ⟨hSubject, hPredicate, -⟩ := valid_nodes h
  obtain ⟨-, -, -, ⟨u, hu, hGraph⟩⟩ := nodes_of_isValid h
  have hDefault : withDefaultGraph s = s := if_pos hContext
  rw [hDefault] at hGraph
  have hGraphText : graphText typeHash s v = (nodeToN3 typeHash s.context).1 := by
    cases v with
    | insert => exact absurd rfl hv
    | delete => simp [graphText, termPattern, hDefault, hContext]
    | ask =>
      rw [graphText, hDefault, hGraph]
      rfl
    | select =>
      rw [graphText, if_pos hContext, hGraph]
      rfl
  have hParameters : boundParameters s v = [] := by
    cases v with
    | insert => exact absurd rfl hv
    | _ => rfl
  rw [addressed, hParameters, denotes_nil]
  simp [termTexts, termPattern, hv, hSubject, hPredicate, hGraphText]

/-- A node that all operations write as the same term. -/
def Addressable (history : List LiteralValue) (fakeBooleans : Bool) : Node → Prop
  | .blank id _ => id.all isIriChar = true
  | .literal value _ =>
    '\x00' ∉ value.toString ∧ (value.language.isEmpty = true ∨ value.language.isValid = true) ∧
      (value.type = .bool → fakeBooleans = false) ∧ value.type ≠ .byteArray ∧
      N3.FirstAgrees history value
  | _ => True

omit [Qt] in
theorem cut_eq_self {text : QString} : cut text = text ↔ '\x00' ∉ text := by
  rw [cut, List.takeWhile_eq_self_iff]
  constructor
  · intro h hMem
    simpa using h _ hMem
  · intro h c hc
    simp only [ne_eq, decide_eq_true_eq]
    rintro rfl
    exact h hc

omit [Qt] in
theorem eq_cut {text : QString} : text = cut text ↔ '\x00' ∉ text := eq_comm.trans cut_eq_self

omit [Qt] in
theorem isAlphanum_of_validSubTags {n : Nat} (hn : n ≠ 0) {privateUse : Bool} {tags : List QString}
    (h : LanguageTag.validSubTags n privateUse tags = true) :
    (tags.all fun t => !t.isEmpty && t.all Char.isAlphanum) = true := by
  induction tags generalizing n privateUse with
  | nil => rfl
  | cons t tags ih =>
    simp only [LanguageTag.validSubTags, Bool.and_eq_true, decide_eq_true_eq, if_neg hn] at h
    obtain ⟨⟨⟨⟨hLength, -⟩, hLetters⟩, -⟩, hRest⟩ := h
    rw [List.all_cons, ih (Nat.succ_ne_zero n) hRest, hLetters]
    cases t with
    | nil => cases hLength
    | cons c t => rfl

/-- The tags that the code takes for valid are those of literals. -/
theorem isLangTag_of_isValid {lang : LanguageTag} (h : lang.isValid = true) :
    isLangTag lang.toString = true := by
  unfold LanguageTag.isValid LanguageTag.subTags at h
  unfold isLangTag
  cases hTags : lang.toString.splitOn '-' with
  | nil => exact absurd hTags (List.splitOn_ne_nil _ _)
  | cons first rest =>
    rw [hTags] at h
    simp only [LanguageTag.validSubTags, Bool.and_eq_true, decide_eq_true_eq, if_true] at h
    obtain ⟨⟨⟨⟨hLength, -⟩, hLetters⟩, -⟩, hRest⟩ := h
    simp only [hLetters, isAlphanum_of_validSubTags Nat.one_ne_zero hRest, Bool.and_true]
    cases first with
    | nil => cases hLength
    | cons c first => rfl

/-- The object is bound and written as one term. -/
def SameObject (typeHash : TypeHash) (fakeBooleans : Bool) (node : Node) : Prop :=
  ∃ t, Inserted node t ∧ readText (objectPattern typeHash fakeBooleans false node).1 = some (.term t)

theorem objectPattern_written {node : Node} (h : (rewritten fakeBooleans node).isValid = true) :
    (objectPattern typeHash fakeBooleans false node).1 =
      (nodeToN3 typeHash (rewritten fakeBooleans node)).1 := by
  simp [objectPattern, termPattern, h]

theorem sameObject_plain (text : QString) (lang : LanguageTag) :
    SameObject typeHash fakeBooleans (.literal (.plain text lang) rfl) ↔
      '\x00' ∉ text ∧ (lang.isEmpty = true ∨ lang.isValid = true) := by
  have hText : (objectPattern typeHash fakeBooleans false (.literal (.plain text lang) rfl)).1 =
      (nodeToN3 typeHash (.literal (.plain text lang) rfl)).1 := objectPattern_written rfl
  have hInserted : ∀ t, Inserted (.literal (.plain text lang) rfl) t ↔
      (if lang.isValid then .lang (cut text) (cut lang.toString) else .plain (cut text)) = t := by
    intro t
    show (parameter _).bind parameterTerm = some t ↔ _
    rw [parameterTerm_plain, Option.some.injEq]
  unfold SameObject
  rw [hText]
  simp only [hInserted, exists_eq_left']
  cases hEmpty : lang.isEmpty with
  | true =>
    have hInvalid : lang.isValid = false := by
      have hNil : lang.normalizedTag = [] := List.isEmpty_iff.mp hEmpty
      rw [LanguageTag.isValid, LanguageTag.subTags, LanguageTag.toString, hNil]
      rfl
    rw [readText_plain text hEmpty, if_neg (by simp [hInvalid])]
    simp [eq_cut]
  | false =>
    obtain ⟨hLang, hTag⟩ := readText_language typeHash text hEmpty
    cases hValid : lang.isValid with
    | true =>
      have hLangTag := isLangTag_of_isValid hValid
      have hCut : cut lang.toString = lang.toString :=
        cut_eq_self.mpr (notMem_of_isLangTag hLangTag (by decide) rfl)
      rw [hTag hLangTag, if_pos rfl, hCut]
      simp [eq_cut]
    | false =>
      rw [if_neg Bool.false_ne_true]
      refine iff_of_false (fun hPlain => ?_) (by simp)
      cases hLang _ hPlain

/-- The literal that stands for another one. -/
theorem ofLiteral_fake {str : QString} {fake : QUrl} (h : StoredAs (.string str) fake) :
    Node.ofLiteral (.fromString str fake) = .literal (.typed (.string str) fake h) rfl := by
  have hText : LiteralValue.text (.string str) = str := rfl
  have hFrom := LiteralValue.fromString_text h nofun trivial
  rw [hText] at hFrom
  rw [hFrom]
  exact Node.ofLiteral_self _ rfl

theorem sameObject_typed (history : List LiteralValue) {v : QVariant} {dtUri : QUrl}
    (h : StoredAs v dtUri) (hValid : (LiteralValue.typed v dtUri h).isValid = true) :
    SameObject (N3.typeHashAfter history) fakeBooleans (.literal (.typed v dtUri h) hValid) ↔
      '\x00' ∉ LiteralValue.text v ∧ (v.type = .bool → fakeBooleans = false) ∧ v.type ≠ .byteArray ∧
        N3.FirstAgrees history (.typed v dtUri h) := by
  have hInserted : ∀ t, Inserted (.literal (.typed v dtUri h) hValid) t ↔
      .typed (cut (LiteralValue.text v)) dtUri.encoded = t := by
    intro t
    show (parameter _).bind parameterTerm = some t ↔ _
    rw [parameterTerm_typed, Option.some.injEq]
  -- a data type that does not store values of this type is not the one of the parameter
  have hFake : ∀ (fake : QUrl) (str : QString), StoredAs (.string str) fake → v.type ≠ .string →
      rewritten fakeBooleans (.literal (.typed v dtUri h) hValid) = .ofLiteral (.fromString str fake) →
      ¬SameObject (N3.typeHashAfter history) fakeBooleans (.literal (.typed v dtUri h) hValid) := by
    rintro fake str hFake hType hRewritten ⟨t, hTerm, hRead⟩
    rw [ofLiteral_fake hFake] at hRewritten
    obtain ⟨written, hStored, -, hWritten⟩ := readText_typed history hFake rfl
    rw [objectPattern_written (by rw [hRewritten]; rfl), hRewritten, hWritten] at hRead
    rw [hInserted] at hTerm
    subst hTerm
    simp only [Option.some.injEq, TermText.term.injEq, Term.typed.injEq] at hRead
    obtain rfl : written = dtUri := QUrl.ext hRead.2
    exact hType (h.1.trans hStored)
  by_cases hBool : v.type = .bool ∧ fakeBooleans = true
  · refine iff_of_false ?_ fun hAll => Bool.false_ne_true ((hAll.2.1 hBool.1).symm.trans hBool.2)
    obtain ⟨hType, rfl⟩ := hBool
    cases v with
    | bool b => exact hFake fakeBooleanType _ ⟨rfl, rfl⟩ nofun rfl
    | _ => cases hType
  · by_cases hByteArray : v.type = .byteArray
    · refine iff_of_false ?_ fun hAll => hAll.2.2.1 hByteArray
      cases v with
      | byteArray a => exact hFake fakeBase64BinaryType _ ⟨rfl, rfl⟩ nofun rfl
      | _ => cases hByteArray
    · have hSame : rewritten fakeBooleans (.literal (.typed v dtUri h) hValid) =
          .literal (.typed v dtUri h) hValid := by
        cases v with
        | bool b =>
          have hReal : fakeBooleans = false := Bool.eq_false_iff.mpr fun hEq => hBool ⟨rfl, hEq⟩
          rw [hReal]
          rfl
        | byteArray a => exact absurd rfl hByteArray
        | _ => rfl
      have hReal : v.type = .bool → fakeBooleans = false := fun hType =>
        Bool.eq_false_iff.mpr fun hEq => hBool ⟨hType, hEq⟩
      obtain ⟨written, -, hAgrees, hRead⟩ := readText_typed history h hValid
      unfold SameObject
      rw [objectPattern_written (by rw [hSame]; rfl), hSame, hRead, ← hAgrees]
      simp only [hInserted, exists_eq_left', Option.some.injEq, TermText.term.injEq, Term.typed.injEq,
        eq_cut]
      exact ⟨fun hBoth => ⟨hBoth.1, hReal, hByteArray, QUrl.ext hBoth.2⟩,
        fun hAll => ⟨hAll.1, congrArg QUrl.encoded hAll.2.2.2⟩⟩

theorem sameObject_iff (history : List LiteralValue) {node : Node} (hValid : node.isValid = true) :
    SameObject (N3.typeHashAfter history) fakeBooleans node ↔ Addressable history fakeBooleans node := by
  have hWritten : ∀ {t}, node.toLiteral = .null → Inserted node t →
      readText (nodeToN3 (N3.typeHashAfter history) node).1 = some (.term t) →
      SameObject (N3.typeHashAfter history) fakeBooleans node := by
    intro t hNull hTerm hText
    have hSame : rewritten fakeBooleans node = node := by
      rw [rewritten, hNull]
      rfl
    exact ⟨t, hTerm, by rw [objectPattern_written (by rw [hSame]; exact hValid), hSame]; exact hText⟩
  cases node with
  | empty => cases hValid
  | resource uri h =>
    exact iff_of_true (hWritten rfl (parameterTerm_resource uri h) (readText_resource uri h)) trivial
  | blank id h =>
    constructor
    · rintro ⟨t, hTerm, -⟩
      exact ((readText_blank h).mp hTerm).1
    · intro hLegal
      exact hWritten rfl ((readText_blank h).mpr ⟨hLegal, rfl⟩) ((readText_blank h).mpr ⟨hLegal, rfl⟩)
  | literal value hLiteral =>
    cases value with
    | null => cases hLiteral
    | plain text lang =>
      rw [sameObject_plain]
      simp [Addressable, LiteralValue.toString, LiteralValue.language, LiteralValue.type,
        LiteralValue.variant, QVariant.type, N3.FirstAgrees, LiteralValue.isPlain]
    | typed v dtUri h =>
      rw [sameObject_typed]
      have hEmpty : LanguageTag.empty.isEmpty = true := rfl
      simp [Addressable, LiteralValue.toString, LiteralValue.language, LiteralValue.type,
        LiteralValue.variant, hEmpty]

/-- All operations on the statement send the same terms if it has a context, and nodes that are written
as they are bound. -/
theorem sameTerms_iff (history : List LiteralValue) (h : s.isValid = true) :
    SameTerms (N3.typeHashAfter history) fakeBooleans s ↔ s.context.isValid = true ∧
      Addressable history fakeBooleans s.subject ∧ Addressable history fakeBooleans s.object := by
  obtain ⟨hSubject, ⟨p, hp, hPredicate⟩, hObject, ⟨u, hu, hGraph⟩⟩ := nodes_of_isValid h
  constructor
  · rintro ⟨quad, hAll⟩
    have hInsert := (addressed_insert h).mp (hAll .insert nofun)
    have hContext : s.context.isValid = true := by
      by_contra hNone
      have hSelect : denotes (termTexts (N3.typeHashAfter history) fakeBooleans s .select) [] =
          some quad := hAll .select nofun
      have hVariable : readText "?g".toList = none := by decide
      have hText := (denotes_nil.mp hSelect).1
      rw [termTexts, graphText, if_neg hNone, hVariable] at hText
      cases hText
    have hAsk := hAll .ask nofun
    obtain ⟨-, hSubjectText, -, hObjectText⟩ :=
      (addressed_written h hContext (v := .ask) nofun).mp hAsk
    refine ⟨hContext, ?_, (sameObject_iff history hObject).mp ⟨_, hInsert.2.2.2, hObjectText⟩⟩
    rcases hSubject with ⟨_, _, hEq⟩ | ⟨id, hId, hEq⟩
    · rw [hEq]
      trivial
    · rw [hEq] at hSubjectText ⊢
      exact ((readText_blank hId).mp hSubjectText).1
  · rintro ⟨hContext, hSubjectLegal, hObjectLegal⟩
    obtain ⟨object, hObjectTerm, hObjectText⟩ := (sameObject_iff history hObject).mpr hObjectLegal
    obtain ⟨subject, hSubjectTerm, hSubjectText⟩ : ∃ t, Inserted s.subject t ∧
        readText (nodeToN3 (N3.typeHashAfter history) s.subject).1 = some (.term t) := by
      rcases hSubject with ⟨uri, hUri, hEq⟩ | ⟨id, hId, hEq⟩
      · rw [hEq]
        exact ⟨_, parameterTerm_resource uri hUri, readText_resource uri hUri⟩
      · rw [hEq] at hSubjectLegal ⊢
        exact ⟨_, (readText_blank hId).mpr ⟨hSubjectLegal, rfl⟩,
          (readText_blank hId).mpr ⟨hSubjectLegal, rfl⟩⟩
    refine ⟨⟨.iri u.encoded, subject, .iri p.encoded, object⟩, fun v _ => ?_⟩
    by_cases hv : v = .insert
    · subst hv
      rw [addressed_insert h, hGraph, hPredicate]
      exact ⟨parameterTerm_resource u hu, hSubjectTerm, parameterTerm_resource p hp, hObjectTerm⟩
    · rw [addressed_written h hContext hv, hPredicate]
      rw [withDefaultGraph, if_pos hContext] at hGraph
      rw [hGraph]
      exact ⟨readText_resource u hu, hSubjectText, readText_resource p hp, hObjectText⟩

/-! ### What the operations do -/

section Server

variable {S : Type} {driver : Driver S} {quads : S → Finset (Quad Term)} {parser : TurtleParser}
  {model : VirtuosoModel S} {quad : Quad Term}

theorem fst_setup (driver : Driver S) (commands : List QString) (conn : Connection S) :
    (Connection.setup driver conn commands).1 = true := by
  induction commands generalizing conn with
  | nil => rfl
  | cons command commands ih =>
    unfold Connection.setup
    exact ih _

theorem exists_connection (h : Evaluates driver quads) (pool : ConnectionPool S) :
    ∃ conn pool', pool.connection driver = (some conn, pool') := by
  cases hOpen : pool.openConnection with
  | some error => exact ⟨_, _, by rw [ConnectionPool.connection, hOpen]⟩
  | none =>
    obtain ⟨state, hConnect⟩ := h.connect pool.odbcConnectString pool.state
    have hSetup := fst_setup driver pool.connectionSetupCommands ⟨state, .none⟩
    rcases hRun : Connection.setup driver ⟨state, .none⟩ pool.connectionSetupCommands with ⟨ok, conn⟩
    obtain rfl : ok = true := by rwa [hRun] at hSetup
    simp only [ConnectionPool.connection, hOpen, ConnectionPool.createConnection, hConnect, hRun]
    exact ⟨_, _, rfl⟩

/-- A request about a quad is evaluated. -/
theorem exists_execute (h : Evaluates driver quads) (conn : Connection S) {request : QString}
    {params : List Node} {v : Verb}
    (hMeaning : meaning request (params.filterMap parameter) = some (v, quad)) :
    ∃ result conn', conn.execute driver request params = (some result, conn') ∧
      quads conn'.state = v.effect quad (quads conn.state) ∧
      v.Answers (decide (quad ∈ quads conn.state)) result := by
  obtain ⟨state, hAlloc, hSame⟩ := h.allocHandle conn.state
  obtain ⟨result, state', hRun, hEffect, hAnswers⟩ := h.execDirect state hMeaning
  refine ⟨result, ⟨state', .none⟩, ?_, hSame ▸ hEffect, hSame ▸ hAnswers⟩
  simp only [Connection.execute, hAlloc, hRun]

variable (parser model) in
theorem exists_sqlQuery (h : Evaluates driver quads)
    (hOpen : model.connectionPool.openConnection.isSome = true) {request : QString} {v : Verb}
    (hMeaning : meaning request [] = some (v, quad)) :
    ∃ result, (model.sqlQuery driver parser request).1 =
        some (.ofResult parser model.supportEmptyGraphs result) ∧
      v.Answers (decide (quad ∈ quads model.connectionPool.state)) result := by
  obtain ⟨error, hError⟩ := Option.isSome_iff_exists.mp hOpen
  have hNone : meaning request (([] : List Node).filterMap parameter) = some (v, quad) := hMeaning
  obtain ⟨result, conn', hRun, -, hAnswers⟩ :=
    exists_execute h ⟨model.connectionPool.state, error⟩ hNone
  refine ⟨result, ?_, hAnswers⟩
  simp only [sqlQuery, ConnectionPool.connection, hError, hRun]

theorem boolValue_of_answers {found : Bool} {result : ResultSet} {supportEmptyGraphs : Bool}
    (h : Verb.ask.Answers found result) :
    (QueryResultIteratorBackend.ofResult parser supportEmptyGraphs result).boolValue = found := by
  obtain ⟨hNames, hRows⟩ := h
  have hColumns : (QueryResult.ofResultSet result).resultColumns = ["__ASK_RETVAL".toList] := hNames
  unfold QueryResultIteratorBackend.ofResult
  simp only [hColumns, if_true]
  cases found with
  | true =>
    rw [if_pos rfl] at hRows
    obtain ⟨cell, cells, rows, hRow, hInt⟩ := hRows
    have hFetch : (QueryResult.ofResultSet result).fetchRow = (true, ⟨result.columns, rows, result.noData,
        cell :: cells, .none⟩) := by
      rw [QueryResult.fetchRow, show (QueryResult.ofResultSet result).rows = _ from hRow]
      rfl
    simp only [hFetch, if_true]
    simpa [QueryResultIteratorBackend.boolValue, QueryResult.getData] using hInt
  | false =>
    rw [if_neg Bool.false_ne_true] at hRows
    have hFetch : (QueryResult.ofResultSet result).fetchRow.1 = false := by
      rw [QueryResult.fetchRow, show (QueryResult.ofResultSet result).rows = _ from hRows]
    simp only [hFetch, Bool.false_eq_true, if_false]
    rfl

theorem allStatements_of_answers {found : Bool} {result : ResultSet} {supportEmptyGraphs : Bool}
    (h : Verb.select.Answers found result) :
    QueryResultIterator.allStatements s ⟨[], [], [], []⟩
      (QueryResultIteratorBackend.ofResult parser supportEmptyGraphs result) =
        if found then [s] else [] := by
  obtain ⟨hColumns, hRows⟩ := h
  obtain ⟨columns, rows, noData⟩ := result
  subst hColumns
  simp only at hRows
  subst hRows
  cases found <;> rfl

/-- `containsStatement` tells whether the server has the quad. -/
theorem containsStatement_eq (h : Evaluates driver quads) (hValid : s.isValid = true)
    (hOpen : model.connectionPool.openConnection.isSome = true)
    (hSupport : model.supportEmptyGraphs = true)
    (hAsk : addressed model.typeHash model.fakeBooleans s .ask = some quad) :
    (model.containsStatement driver parser s).1 =
      decide (quad ∈ quads model.connectionPool.state) := by
  have hMeaning := meaning_request .ask hAsk
  rw [← ask_request hValid] at hMeaning
  have hPool : (model.askQuery (withDefaultGraph s)).2.connectionPool = model.connectionPool := by
    unfold askQuery
    split <;> rfl
  obtain ⟨result, hQuery, hAnswers⟩ := exists_sqlQuery parser
    (model.askQuery (withDefaultGraph s)).2 h (by rw [hPool]; exact hOpen) hMeaning
  rw [hPool] at hAnswers
  have hContains : (model.containsStatement driver parser s).1 =
      (model.containsAnyStatement driver parser (withDefaultGraph s)).1 := by
    simp [containsStatement, hValid, hSupport]
  rw [hContains, containsAnyStatement, sparqlQuery, hQuery]
  exact boolValue_of_answers hAnswers

/-- `listStatements` lists the statement if the server has the quad. -/
theorem listStatements_eq (h : Evaluates driver quads) (hValid : s.isValid = true)
    (hContext : s.context.isValid = true)
    (hOpen : model.connectionPool.openConnection.isSome = true)
    (hSelect : addressed model.typeHash model.fakeBooleans s .select = some quad) :
    (model.listStatements driver parser s).1 =
      if quad ∈ quads model.connectionPool.state then [s] else [] := by
  have hMeaning := meaning_request .select hSelect
  rw [← select_request hValid hContext] at hMeaning
  have hPool : (model.listQuery s).2.connectionPool = model.connectionPool := by
    unfold listQuery
    split <;> rfl
  obtain ⟨result, hQuery, hAnswers⟩ := exists_sqlQuery parser (model.listQuery s).2 h
    (by rw [hPool]; exact hOpen) hMeaning
  rw [hPool] at hAnswers
  have hBindings : listBindings s = ⟨[], [], [], []⟩ := by
    obtain ⟨hSubject, hPredicate, hObject⟩ := valid_nodes hValid
    simp [listBindings, hSubject, hPredicate, hObject, hContext]
  simp only [listStatements, sparqlQuery, hQuery, hBindings, Option.map_some, Option.getD_some]
  rw [allStatements_of_answers hAnswers]
  simp only [decide_eq_true_eq]

theorem snd_pattern (hValid : s.isValid = true) (parameterized : Bool) :
    (statementToConstructGraphPattern typeHash fakeBooleans (withDefaultGraph s) true parameterized).2 =
      (objectPattern typeHash fakeBooleans parameterized s.object).2 := by
  obtain ⟨-, -, hContext⟩ := isLiteral_of_isValid hValid
  simp only [statementToConstructGraphPattern, if_true, snd_termPattern hContext,
    triplePattern_withDefaultGraph, snd_triplePattern hValid]

theorem snd_objectPattern_insert (object : Node) :
    (objectPattern typeHash fakeBooleans true object).2 = typeHash := by
  rw [objectPattern_insert]
  cases object with
  | blank id h => exact snd_termPattern rfl _ _ _
  | empty => rfl
  | resource uri h => rfl
  | literal value h => rfl

/-- After `addStatement`, the server has the quad. -/
theorem addStatement_effect (h : Evaluates driver quads) (hValid : s.isValid = true)
    (hSupport : model.supportEmptyGraphs = true) {conn : Connection S} {pool : ConnectionPool S}
    (hConnection : model.connectionPool.connection driver = (some conn, pool))
    (hInsert : addressed model.typeHash model.fakeBooleans s .insert = some quad) :
    (model.addStatement driver s).model.connectionPool.openConnection.isSome = true ∧
      quads (model.addStatement driver s).model.connectionPool.state = insert quad (quads conn.state) ∧
      (model.addStatement driver s).model.typeHash = model.typeHash ∧
      (model.addStatement driver s).model.fakeBooleans = model.fakeBooleans ∧
      (model.addStatement driver s).model.supportEmptyGraphs = true := by
  have hMeaning := meaning_request .insert hInsert
  rw [← insert_request hValid] at hMeaning
  obtain ⟨result, conn', hRun, hEffect, -⟩ := exists_execute h conn hMeaning
  have hHash : (model.pattern (withDefaultGraph s) true true).2.typeHash = model.typeHash :=
    (snd_pattern hValid true).trans (snd_objectPattern_insert s.object)
  have hAdded : (model.addStatement driver s).model =
      { (model.pattern (withDefaultGraph s) true true).2 with
        connectionPool := pool.update conn', lastError := .none } := by
    simp only [addStatement, hValid, hSupport, Bool.not_true, Bool.and_false, Bool.false_eq_true,
      if_false, hConnection, Connection.executeCommand, if_true, pattern, hRun]
  rw [hAdded]
  exact ⟨rfl, hEffect, hHash, rfl, hSupport⟩

/-- After `removeStatement`, it does not have it. -/
theorem removeStatement_effect (h : Evaluates driver quads) (hValid : s.isValid = true)
    (hSupport : model.supportEmptyGraphs = true) (hSent : s.context.uri ≠ openlinkVirtualGraph)
    (hDelete : addressed model.typeHash model.fakeBooleans s .delete = some quad) :
    (model.removeStatement driver s).model.connectionPool.openConnection.isSome = true ∧
      quad ∉ quads (model.removeStatement driver s).model.connectionPool.state ∧
      (model.removeStatement driver s).model.typeHash =
        (objectPattern model.typeHash model.fakeBooleans false s.object).2 ∧
      (model.removeStatement driver s).model.fakeBooleans = model.fakeBooleans ∧
      (model.removeStatement driver s).model.supportEmptyGraphs = true := by
  have hMeaning : meaning _ (([] : List Node).filterMap parameter) = _ := meaning_request .delete hDelete
  rw [← delete_request hValid] at hMeaning
  obtain ⟨conn, pool, hConnection⟩ := exists_connection h model.connectionPool
  obtain ⟨result, conn', hRun, hEffect, -⟩ := exists_execute h conn hMeaning
  have hRemoved : ∃ error, (model.removeStatement driver s).model =
      { (model.pattern (withDefaultGraph s) true false).2 with
        connectionPool := pool.update conn', lastError := error } := by
    have hRefuses : (s.context.isValid && decide (s.context.uri = openlinkVirtualGraph)) = false := by
      simp [hSent]
    simp only [removeStatement, hValid, hSupport, Bool.not_true, Bool.and_false, Bool.false_eq_true,
      if_false, hRefuses]
    have hPool : (model.pattern (withDefaultGraph s) true false).2.connectionPool.connection driver =
        (some conn, pool) := hConnection
    rw [executeRemoval_connected _ _ hPool]
    simp only [pattern, hRun]
    exact ⟨_, rfl⟩
  obtain ⟨error, hRemoved⟩ := hRemoved
  rw [hRemoved]
  refine ⟨rfl, ?_, snd_pattern hValid false, rfl, hSupport⟩
  show quad ∉ quads conn'.state
  rw [hEffect]
  exact Finset.notMem_erase _ _

/-- What a client finds when an operation succeeds. -/
structure Behaves (driver : Driver S) (parser : TurtleParser) (model : VirtuosoModel S) (s : Statement) :
    Prop where
  contained : (model.addStatement driver s).code = .errorNone →
    ((model.addStatement driver s).model.containsStatement driver parser s).1 = true
  listed : (model.addStatement driver s).code = .errorNone →
    ((model.addStatement driver s).model.listStatements driver parser s).1 = [s]
  removed : (model.removeStatement driver s).code = .errorNone →
    ((model.removeStatement driver s).model.containsStatement driver parser s).1 = false

theorem rewritten_of_addressable {history : List LiteralValue} {node : Node}
    (h : Addressable history fakeBooleans node) : rewritten fakeBooleans node = node := by
  cases node with
  | literal value hLiteral =>
    obtain ⟨-, -, hBool, hByteArray, -⟩ := h
    unfold rewritten
    split
    · rename_i b hVariant
      have hType : value.type = .bool := congrArg QVariant.type hVariant
      rw [hBool hType]
      rfl
    · rename_i a hVariant
      exact absurd (congrArg QVariant.type hVariant) hByteArray
    · rfl
  | _ => rfl

/-- Writing a literal keeps it addressable. -/
theorem addressable_objectPattern {history : List LiteralValue} {node : Node}
    (h : Addressable history fakeBooleans node) :
    ∃ history', (objectPattern (N3.typeHashAfter history) fakeBooleans false node).2 =
      N3.typeHashAfter history' ∧ Addressable history' fakeBooleans node := by
  have hText : (objectPattern (N3.typeHashAfter history) fakeBooleans false node).2 =
      (termPattern (N3.typeHashAfter history) "?o".toList quotedBatchParams false node).2 := by
    simp [objectPattern, rewritten_of_addressable h]
  rw [hText]
  cases node with
  | literal value hLiteral =>
    refine ⟨history ++ [value], ?_, h.1, h.2.1, h.2.2.1, h.2.2.2.1, fun hPlain first hFirst => ?_⟩
    · have hAfter : N3.typeHashAfter (history ++ [value]) =
          (Node.literalToN3 (N3.typeHashAfter history) value).2 := List.foldl_append
      rw [hAfter]
      rfl
    · cases hBefore : N3.firstOfType history value.type with
      | some first' =>
        rw [N3.firstOfType_append hBefore] at hFirst
        cases hFirst
        exact h.2.2.2.2 hPlain _ hBefore
      | none =>
        unfold N3.firstOfType at hBefore hFirst
        rw [List.find?_append, hBefore, Option.none_or] at hFirst
        simp [hPlain] at hFirst
        rw [hFirst]
  | blank id hId => exact ⟨history, snd_termPattern rfl _ _ _, h⟩
  | empty => exact ⟨history, rfl, h⟩
  | resource uri hUri => exact ⟨history, rfl, h⟩

end Server

/-- The operations on a valid statement send the same terms, and find what they changed on any server
that evaluates them, if and only if the statement has a context, its blank nodes have names that are
legal in an IRI, and its literal is text without null characters, with a valid language if it has any,
that is neither a boolean written as another type nor a byte array, and whose data type is the first
that the process wrote for its type of values. -/
theorem same_quad_iff (history : List LiteralValue) (fakeBooleans : Bool) (s : Statement)
    (h : s.isValid = true) :
    (SameTerms (N3.typeHashAfter history) fakeBooleans s ∧
      ∀ (S : Type) (driver : Driver S) (quads : S → Finset (Quad Term)) (parser : TurtleParser)
        (model : VirtuosoModel S), Evaluates driver quads →
        model.typeHash = N3.typeHashAfter history → model.fakeBooleans = fakeBooleans →
        model.supportEmptyGraphs = true → Behaves driver parser model s) ↔
      s.context.isValid = true ∧ Addressable history fakeBooleans s.subject ∧
        Addressable history fakeBooleans s.object := by
  rw [← sameTerms_iff history h]
  refine ⟨And.left, fun hSame => ⟨hSame, ?_⟩⟩
  rintro S driver quads parser model hServer hHash rfl hSupport
  obtain ⟨hContext, hSubject, hObject⟩ := (sameTerms_iff history h).mp hSame
  obtain ⟨quad, hAll⟩ := hSame
  rw [← hHash] at hAll
  obtain ⟨conn, pool, hConnection⟩ := exists_connection hServer model.connectionPool
  obtain ⟨hOpen, hQuads, hHashAdded, hFake, hSupportAdded⟩ :=
    addStatement_effect hServer h hSupport hConnection (hAll .insert nofun)
  have hAdded := hQuads ▸ Finset.mem_insert_self quad (quads conn.state)
  refine ⟨fun _ => ?_, fun _ => ?_, fun hCode => ?_⟩
  · rw [containsStatement_eq hServer h hOpen hSupportAdded
      (by rw [hHashAdded, hFake]; exact hAll .ask nofun)]
    exact decide_eq_true hAdded
  · rw [listStatements_eq hServer h hContext hOpen
      (by rw [hHashAdded, hFake]; exact hAll .select nofun), if_pos hAdded]
  · have hSent : s.context.uri ≠ openlinkVirtualGraph := by
      intro hVirtual
      rw [removeStatement, if_neg (by simp [h]), if_neg (by simp [hSupport]),
        if_pos (by simp [hContext, hVirtual])] at hCode
      cases hCode
    obtain ⟨hOpenRemoved, hRemoved, hHashRemoved, hFakeRemoved, hSupportRemoved⟩ :=
      removeStatement_effect hServer h hSupport hSent (hAll .delete fun _ => hSent)
    -- the literal that was written may have entered its data type
    obtain ⟨history', hHash', hObject'⟩ := addressable_objectPattern hObject
    have hSubject' : Addressable history' model.fakeBooleans s.subject := by
      obtain ⟨⟨_, _, hEq⟩ | ⟨_, _, hEq⟩, -⟩ := nodes_of_isValid h
      · rw [hEq]
        trivial
      · rw [hEq] at hSubject ⊢
        exact hSubject
    obtain ⟨quad', hAll'⟩ := (sameTerms_iff history' h).mpr ⟨hContext, hSubject', hObject'⟩
    obtain rfl : quad' = quad := by
      have hInsert : addressed model.typeHash model.fakeBooleans s .insert = some quad' :=
        (addressed_insert h).mpr ((addressed_insert h).mp (hAll' .insert nofun))
      rw [hAll .insert nofun] at hInsert
      exact (Option.some.inj hInsert).symm
    rw [hHash, hHash'] at hHashRemoved
    rw [containsStatement_eq hServer h hOpenRemoved hSupportRemoved
      (by rw [hHashRemoved, hFakeRemoved]; exact hAll' .ask nofun)]
    exact decide_eq_false hRemoved

end Qt

section Example

local instance sameQuadQt : Qt := asciiQt

/-- The example statement in its context satisfies the condition. -/
theorem same_quad_example : exampleStatement.isValid = true ∧
    (SameTerms (N3.typeHashAfter []) true exampleStatement ∧
      ∀ (S : Type) (driver : Driver S) (quads : S → Finset (Quad Term)) (parser : TurtleParser)
        (model : VirtuosoModel S), Evaluates driver quads →
        model.typeHash = N3.typeHashAfter [] → model.fakeBooleans = true →
        model.supportEmptyGraphs = true → Behaves driver parser model exampleStatement) :=
  ⟨by decide, (same_quad_iff [] true exampleStatement (by decide)).mpr ⟨by decide, trivial, trivial⟩⟩

/-- A statement about a boolean. -/
def booleanStatement : Statement :=
  { exampleStatement with object := .ofLiteral (.ofVariant (.bool true)) }

/-- `addStatement` sends the boolean as it is, and all other operations write a string in its place. -/
theorem same_quad_boolean :
    let model := openedModel (∅ : Finset (Quad Term))
    let added := model.addStatement quadServer booleanStatement
    booleanStatement.isValid = true ∧
    (addressed [] true booleanStatement .insert).map Quad.object =
      some (.typed "true".toList Vocabulary.XMLSchema.boolean.encoded) ∧
    (addressed [] true booleanStatement .ask).map Quad.object =
      some (.typed "true".toList fakeBooleanType.encoded) ∧
    added.code = .errorNone ∧ (added.model.containsStatement quadServer none booleanStatement).1 = false ∧
    ¬SameTerms [] true booleanStatement := by
  have hInsert : (addressed [] true booleanStatement .insert).map Quad.object =
      some (.typed "true".toList Vocabulary.XMLSchema.boolean.encoded) := by decide +kernel
  have hAsk : (addressed [] true booleanStatement .ask).map Quad.object =
      some (.typed "true".toList fakeBooleanType.encoded) := by decide +kernel
  have hNe : Term.typed "true".toList Vocabulary.XMLSchema.boolean.encoded ≠
      .typed "true".toList fakeBooleanType.encoded := by decide +kernel
  obtain ⟨inserted, hInserted, hObject⟩ := Option.map_eq_some_iff.mp hInsert
  obtain ⟨asked, hAsked, hObject'⟩ := Option.map_eq_some_iff.mp hAsk
  have hDiffers : asked ≠ inserted := fun hEq => hNe (hObject.symm.trans (hEq ▸ hObject'))
  have hConnection : (openedModel (∅ : Finset (Quad Term))).connectionPool.connection quadServer =
      (some ⟨∅, .none⟩, ⟨[], [], ∅, some .none, .none⟩) := rfl
  obtain ⟨hOpen, hQuads, hHash, hFake, hSupport⟩ :=
    addStatement_effect evaluates_quadServer (by decide) rfl hConnection hInserted
  refine ⟨by decide, hInsert, hAsk, rfl, ?_, ?_⟩
  · rw [containsStatement_eq evaluates_quadServer (by decide) hOpen hSupport
      (by rw [hHash, hFake]; exact hAsked), hQuads]
    refine decide_eq_false fun hMem => ?_
    exact (Finset.mem_insert.mp hMem).elim hDiffers (Finset.notMem_empty asked)
  · rintro ⟨quad, hAll⟩
    have hFirst := Option.some.inj ((hAll .insert nofun).symm.trans hInserted)
    have hSecond := Option.some.inj ((hAll .ask nofun).symm.trans hAsked)
    exact hDiffers (hSecond.symm.trans hFirst)

end Example

end Virtuoso

end Soprano
