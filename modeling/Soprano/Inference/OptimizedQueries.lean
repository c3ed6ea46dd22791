import Soprano.Inference.Termination

/-! The optimized queries of the rules. The query of a rule that is bound to a statement asks only for
what its preconditions need beside the statement, and the statement is merged into the results. -/

namespace Soprano

namespace Inference

open Saturation Sparql Vocabulary

section Qt

variable [Qt]

/-! ### The values that a statement gives to a precondition -/

/-- The node is written into a query as SPARQL writes it. -/
def Iri : Node → Prop
  | .resource u _ => Qt.urlToString u = u.encoded ∧ QString.MarkersAbove 3 u.encoded
  | _ => False

namespace NodePattern

/-- A node of the pattern is a resource, so that `match` compares it as a term. -/
def Named : NodePattern → Prop
  | resource node => node.isResource = true
  | ofVariable _ => True

/-- The pattern with the bound variables replaced. -/
def subst (b : BindingSet) : NodePattern → NodePattern
  | resource node => .resource node
  | ofVariable name => if b.contains name then .resource (b.value name) else .ofVariable name

theorem bind_of_match {p : NodePattern} (hNamed : p.Named) {n : Node} (hMatch : p.match n = true)
    (value : QString → Node) (hValue : p.isVariable = true → value p.variableName = n) :
    p.bind value = n := by
  cases p with
  | ofVariable name => exact hValue rfl
  | resource m =>
    cases m with
    | empty | blank | literal => cases hNamed
    | resource u hu =>
      have hPlain : (Node.resource u hu).isDouble = false := rfl
      cases n with
      | resource v hv => simpa [NodePattern.match, Node.operatorEq, NodePattern.bind, eq_comm] using hMatch
      | empty | blank | literal => simp [NodePattern.match, Node.operatorEq] at hMatch

theorem bind_subst (p : NodePattern) (b : BindingSet) (value : QString → Node) :
    (p.subst b).bind value =
      p.bind fun name => if b.contains name then b.value name else value name := by
  cases p with
  | resource => rfl
  | ofVariable name => by_cases hBound : b.contains name = true <;> simp [subst, NodePattern.bind, hBound]

theorem mem_variableNames_subst {p : NodePattern} {b : BindingSet} {name : QString} :
    name ∈ (p.subst b).variableNames ↔ name ∈ p.variableNames ∧ b.contains name = false := by
  cases p with
  | resource => simp [subst, variableNames]
  | ofVariable other =>
    simp only [subst]
    split
    · rename_i hBound
      simp only [variableNames, List.not_mem_nil, List.mem_singleton, false_iff, not_and]
      rintro rfl
      simp [hBound]
    · rename_i hFree
      simp only [variableNames, List.mem_singleton, iff_self_and]
      rintro rfl
      simpa using hFree

theorem createSparqlNodePattern_resource (u : QUrl) (hu : u.isEmpty = false) (b : BindingSet) :
    (NodePattern.resource (.resource u hu)).createSparqlNodePattern b = '<' :: (u.encoded ++ ['>']) := by
  simp [createSparqlNodePattern, Node.isLiteral, Node.isResource, Node.type, Node.uri]

/-- A value that is an IRI is written in place of its variable. -/
theorem createSparqlNodePattern_subst {p : NodePattern} {b : BindingSet}
    (h : ∀ name ∈ p.variableNames, b.contains name = true → Iri (b.value name)) :
    (p.subst b).createSparqlNodePattern .empty = p.createSparqlNodePattern b := by
  cases p with
  | resource => rfl
  | ofVariable name =>
    by_cases hBound : b.contains name = true
    · have hIri := h name (List.mem_singleton_self name) hBound
      simp only [subst, if_pos hBound]
      cases hNode : b.value name with
      | empty | blank | literal =>
        rw [hNode] at hIri
        cases hIri
      | resource u hu =>
        rw [hNode] at hIri
        rw [createSparqlNodePattern_resource, createSparqlNodePattern, if_pos hBound, hNode, Node.toString,
          hIri.1]
    · rw [subst, if_neg hBound, createSparqlNodePattern, createSparqlNodePattern, if_neg hBound]
      rfl

theorem plainPattern_subst {p : NodePattern} (hPlain : PlainPattern p) {b : BindingSet}
    (h : ∀ name ∈ p.variableNames, b.contains name = true → Iri (b.value name)) :
    PlainPattern (p.subst b) := by
  cases p with
  | resource => exact hPlain
  | ofVariable name =>
    by_cases hBound : b.contains name = true
    · have hIri := h name (List.mem_singleton_self name) hBound
      simp only [subst, if_pos hBound]
      cases hNode : b.value name with
      | empty | blank | literal =>
        rw [hNode] at hIri
        cases hIri
      | resource u hu => exact trivial
    · rw [subst, if_neg hBound]
      exact hPlain

theorem markersAbove_subst {p : NodePattern} {b : BindingSet}
    (hMarkers : QString.MarkersAbove 3 (p.createSparqlNodePattern .empty))
    (h : ∀ name ∈ p.variableNames, b.contains name = true → Iri (b.value name)) :
    QString.MarkersAbove 3 ((p.subst b).createSparqlNodePattern .empty) := by
  cases p with
  | resource => exact hMarkers
  | ofVariable name =>
    by_cases hBound : b.contains name = true
    · have hIri := h name (List.mem_singleton_self name) hBound
      simp only [subst, if_pos hBound]
      cases hNode : b.value name with
      | empty | blank | literal =>
        rw [hNode] at hIri
        cases hIri
      | resource u hu =>
        rw [hNode] at hIri
        have hEnd : QString.MarkersAbove 3 ['>'] := QString.markersAbove_of_notMem (by decide)
        rw [createSparqlNodePattern_resource]
        exact QString.MarkersAbove.cons (by decide) (hIri.2.append rfl hEnd)
    · rw [subst, if_neg hBound]
      exact hMarkers

/-- One step of `insertBindings`. -/
def insertNode (p : NodePattern) (n : Node) (b : BindingSet) : BindingSet :=
  if p.isVariable then b.insert p.variableName n else b

theorem value_insertNode_of_notMem {p : NodePattern} {n : Node} {b : BindingSet} {name : QString}
    (h : name ∉ p.variableNames) : (p.insertNode n b).value name = b.value name := by
  cases p with
  | resource => rfl
  | ofVariable other =>
    have hOther : name ≠ other := fun hEq => h (hEq ▸ List.mem_singleton_self other)
    simp [insertNode, isVariable, variableName, hOther]

theorem value_insertNode {p : NodePattern} {n : Node} {b : BindingSet} {name : QString}
    (h : name ∈ p.variableNames) : (p.insertNode n b).value name = n := by
  cases p with
  | resource => cases h
  | ofVariable other =>
    obtain rfl := List.mem_singleton.mp h
    simp [insertNode, isVariable, variableName]

theorem value_eq_of_bind {p : NodePattern} {n : Node} {value : QString → Node} (h : p.bind value = n)
    {name : QString} (hName : name ∈ p.variableNames) : value name = n := by
  cases p with
  | resource => cases hName
  | ofVariable other =>
    obtain rfl := List.mem_singleton.mp hName
    exact h

end NodePattern

namespace StatementPattern

structure Named (p : StatementPattern) : Prop where
  subject : p.subjectPattern.Named
  predicate : p.predicatePattern.Named
  object : p.objectPattern.Named

/-- Every variable of the pattern stands in the other pattern at the same place. -/
structure Copies (p q : StatementPattern) : Prop where
  subject : p.subjectPattern.isVariable = true → q.subjectPattern = p.subjectPattern
  predicate : p.predicatePattern.isVariable = true → q.predicatePattern = p.predicatePattern
  object : p.objectPattern.isVariable = true → q.objectPattern = p.objectPattern

def subst (b : BindingSet) (p : StatementPattern) : StatementPattern :=
  ⟨p.subjectPattern.subst b, p.predicatePattern.subst b, p.objectPattern.subst b⟩

theorem bind_congr {p : StatementPattern} {value value' : QString → Node}
    (h : ∀ name ∈ p.variableNames, value name = value' name) : p.bind value = p.bind value' := by
  have hNode : ∀ {q : NodePattern}, (∀ name ∈ q.variableNames, value name = value' name) →
      q.bind value = q.bind value' := by
    intro q hq
    cases q with
    | resource => rfl
    | ofVariable name => exact hq name (List.mem_singleton_self name)
  simp only [variableNames, List.forall_mem_append] at h
  rw [StatementPattern.bind, hNode h.1, hNode h.2.1, hNode h.2.2]
  rfl

theorem bind_subst (p : StatementPattern) (b : BindingSet) (value : QString → Node) :
    (p.subst b).bind value =
      p.bind fun name => if b.contains name then b.value name else value name := by
  simp only [subst, StatementPattern.bind, NodePattern.bind_subst]

theorem mem_variableNames_subst {p : StatementPattern} {b : BindingSet} {name : QString} :
    name ∈ (p.subst b).variableNames ↔ name ∈ p.variableNames ∧ b.contains name = false := by
  simp only [subst, variableNames, List.mem_append, NodePattern.mem_variableNames_subst]
  tauto

theorem plain_subst {p : StatementPattern} (hPlain : Plain p) {b : BindingSet}
    (h : ∀ name ∈ p.variableNames, b.contains name = true → Iri (b.value name)) :
    Plain (p.subst b) := by
  have hSubject := fun name hName => h name (List.mem_append_left _ hName)
  have hPredicate := fun name hName =>
    h name (List.mem_append_right _ (List.mem_append_left _ hName))
  have hObject := fun name hName =>
    h name (List.mem_append_right _ (List.mem_append_right _ hName))
  exact ⟨NodePattern.plainPattern_subst hPlain.subject hSubject,
    NodePattern.plainPattern_subst hPlain.predicate hPredicate,
    NodePattern.plainPattern_subst hPlain.object hObject,
    NodePattern.markersAbove_subst hPlain.subjectMarkers hSubject,
    NodePattern.markersAbove_subst hPlain.predicateMarkers hPredicate⟩

theorem createSparqlGraphPattern_subst {p : StatementPattern} {b : BindingSet}
    (h : ∀ name ∈ p.variableNames, b.contains name = true → Iri (b.value name)) :
    (p.subst b).createSparqlGraphPattern .empty = p.createSparqlGraphPattern b := by
  rw [createSparqlGraphPattern, createSparqlGraphPattern, subst,
    NodePattern.createSparqlNodePattern_subst fun name hName => h name (List.mem_append_left _ hName),
    NodePattern.createSparqlNodePattern_subst fun name hName =>
      h name (List.mem_append_right _ (List.mem_append_left _ hName)),
    NodePattern.createSparqlNodePattern_subst fun name hName =>
      h name (List.mem_append_right _ (List.mem_append_right _ hName))]

/-! ### `insertBindings` -/

theorem contains_insert (b : BindingSet) (name other : QString) (n : Node) :
    (b.insert name n).contains other = true ↔ other = name ∨ b.contains other = true := by
  simp [BindingSet.contains, BindingSet.insert, BindingSet.bindingNames, or_comm]

theorem contains_insertBindings {p : StatementPattern} {s : Statement} {b : BindingSet}
    {name : QString} : (p.insertBindings s b).contains name = true ↔
      name ∈ p.variableNames ∨ b.contains name = true := by
  obtain ⟨ps, pp, po⟩ := p
  cases ps <;> cases pp <;> cases po <;>
    simp [insertBindings, variableNames, NodePattern.variableNames, NodePattern.isVariable,
      NodePattern.variableName, contains_insert] <;> tauto

theorem insertBindings_eq (p : StatementPattern) (s : Statement) (b : BindingSet) :
    p.insertBindings s b = p.objectPattern.insertNode s.object
      (p.predicatePattern.insertNode s.predicate (p.subjectPattern.insertNode s.subject b)) := rfl

/-- Only the variables of the pattern are bound anew. -/
theorem value_insertBindings_of_notMem {p : StatementPattern} {s : Statement} {b : BindingSet}
    {name : QString} (h : name ∉ p.variableNames) :
    (p.insertBindings s b).value name = b.value name := by
  simp only [variableNames, List.mem_append, not_or] at h
  rw [insertBindings_eq, NodePattern.value_insertNode_of_notMem h.2.2,
    NodePattern.value_insertNode_of_notMem h.2.1, NodePattern.value_insertNode_of_notMem h.1]

/-- The variables of the pattern have the nodes of the statement as their values. -/
structure Gives (p : StatementPattern) (value : QString → Node) (s : Statement) : Prop where
  subject : ∀ name ∈ p.subjectPattern.variableNames, value name = s.subject
  predicate : ∀ name ∈ p.predicatePattern.variableNames, value name = s.predicate
  object : ∀ name ∈ p.objectPattern.variableNames, value name = s.object

theorem gives_of_bind {p : StatementPattern} {s : Statement} {value : QString → Node}
    (h : p.bind value = s.triple) : p.Gives value s where
  subject _ := NodePattern.value_eq_of_bind (congrArg Statement.subject h)
  predicate _ := NodePattern.value_eq_of_bind (congrArg Statement.predicate h)
  object _ := NodePattern.value_eq_of_bind (congrArg Statement.object h)

theorem Copies.gives {p q : StatementPattern} (hCopies : q.Copies p) {value : QString → Node}
    {s : Statement} (h : p.Gives value s) : q.Gives value s := by
  have hVariable : ∀ {a : NodePattern} {name : QString}, name ∈ a.variableNames → a.isVariable = true := by
    intro a name hName
    cases a with
    | resource => cases hName
    | ofVariable => rfl
  refine ⟨fun name hName => ?_, fun name hName => ?_, fun name hName => ?_⟩
  · apply h.subject
    rwa [hCopies.subject (hVariable hName)]
  · apply h.predicate
    rwa [hCopies.predicate (hVariable hName)]
  · apply h.object
    rwa [hCopies.object (hVariable hName)]

/-- The pattern binds the values that its variables have in the statement. -/
theorem Gives.value_insertBindings {p : StatementPattern} {s : Statement} {value : QString → Node}
    (h : p.Gives value s) (b : BindingSet) {name : QString} (hName : name ∈ p.variableNames) :
    (p.insertBindings s b).value name = value name := by
  simp only [variableNames, List.mem_append] at hName
  rw [insertBindings_eq]
  by_cases hLast : name ∈ p.objectPattern.variableNames
  · rw [NodePattern.value_insertNode hLast, h.object name hLast]
  rw [NodePattern.value_insertNode_of_notMem hLast]
  by_cases hMiddle : name ∈ p.predicatePattern.variableNames
  · rw [NodePattern.value_insertNode hMiddle, h.predicate name hMiddle]
  have hFirst := hName.resolve_right fun h => h.elim hMiddle hLast
  rw [NodePattern.value_insertNode_of_notMem hMiddle, NodePattern.value_insertNode hFirst,
    h.subject name hFirst]

/-- A pattern that matches a statement gives it back, where no variable stands in it twice. -/
theorem bind_insertBindings {p : StatementPattern} (hNamed : p.Named) (hLinear : p.variableNames.Nodup)
    {s : Statement} (hMatch : p.match s = true) :
    p.bind (p.insertBindings s .empty).value = s.triple := by
  simp only [StatementPattern.match, Bool.and_eq_true] at hMatch
  obtain ⟨⟨hSubject, hPredicate⟩, hObject⟩ := hMatch
  rw [variableNames, List.nodup_append', List.nodup_append'] at hLinear
  obtain ⟨-, ⟨-, -, hMiddle⟩, hFirst⟩ := hLinear
  rw [List.disjoint_append_right] at hFirst
  have hValue : ∀ {q : NodePattern}, q.isVariable = true → q.variableName ∈ q.variableNames := by
    intro q hVariable
    cases q with
    | resource => cases hVariable
    | ofVariable name => exact List.mem_singleton_self name
  have hS := NodePattern.bind_of_match hNamed.subject hSubject (p.insertBindings s .empty).value
    fun hVariable => by
      rw [insertBindings_eq, NodePattern.value_insertNode_of_notMem (hFirst.2 (hValue hVariable)),
        NodePattern.value_insertNode_of_notMem (hFirst.1 (hValue hVariable)),
        NodePattern.value_insertNode (hValue hVariable)]
  have hP := NodePattern.bind_of_match hNamed.predicate hPredicate (p.insertBindings s .empty).value
    fun hVariable => by
      rw [insertBindings_eq, NodePattern.value_insertNode_of_notMem (hMiddle (hValue hVariable)),
        NodePattern.value_insertNode (hValue hVariable)]
  have hO := NodePattern.bind_of_match hNamed.object hObject (p.insertBindings s .empty).value
    fun hVariable => by
      rw [insertBindings_eq, NodePattern.value_insertNode (hValue hVariable)]
  rw [StatementPattern.bind, hS, hP, hO]
  rfl

end StatementPattern

/-! ### The query -/

namespace Rule

/-- What the preconditions of a rule have to be for its optimized query to be right. -/
structure Selective (r : Rule) : Prop where
  several : 2 ≤ r.preconditions.length
  named : ∀ p ∈ r.preconditions, p.Named
  linear : ∀ p ∈ r.preconditions, p.variableNames.Nodup
  ordered : r.preconditions.Pairwise fun p q => q.variableNames ⊆ p.variableNames → q.Copies p

theorem selective_unbound (r : Rule) : r.unbound.Selective ↔ r.Selective :=
  ⟨fun h => ⟨h.several, h.named, h.linear, h.ordered⟩, fun h => ⟨h.several, h.named, h.linear, h.ordered⟩⟩

/-- The values that the statement gives to variables of other preconditions can be written into a
query. -/
def Substitutes (r : Rule) (s : Statement) : Prop :=
  ∀ k p, r.preconditions[k]? = some p → p.match s = true →
    r.rendersEffectInvalid (p.insertBindings s .empty) = false →
    ∀ name ∈ p.variableNames, name ∈ names (r.preconditions.eraseIdx k) →
      Iri ((p.insertBindings s .empty).value name)

/-- The patterns of `subQuery`. -/
def subGroup (r : Rule) (p : StatementPattern) (k : Nat) : Option (List StatementPattern) :=
  if p.match r.bindingStatement then
    let bindings := p.insertBindings r.bindingStatement .empty
    if r.rendersEffectInvalid bindings then none
    else some ((r.preconditions.eraseIdx k).map (·.subst bindings))
  else none

def subGroups (r : Rule) : List (List StatementPattern) :=
  r.preconditions.zipIdx.filterMap fun x => r.subGroup x.1 x.2

variable {r : Rule}

theorem subGroup_eq_some {p : StatementPattern} {k : Nat} {group : List StatementPattern} :
    r.subGroup p k = some group ↔ p.match r.bindingStatement = true ∧
      r.rendersEffectInvalid (p.insertBindings r.bindingStatement .empty) = false ∧
      (r.preconditions.eraseIdx k).map (·.subst (p.insertBindings r.bindingStatement .empty)) =
        group := by
  rw [subGroup]
  by_cases hMatch : p.match r.bindingStatement = true
  · by_cases hInvalid : r.rendersEffectInvalid (p.insertBindings r.bindingStatement .empty) = true <;>
      simp [hMatch, hInvalid]
  · simp [hMatch]

theorem mem_subGroups {group : List StatementPattern} : group ∈ r.subGroups ↔
    ∃ k p, r.preconditions[k]? = some p ∧ r.subGroup p k = some group := by
  simp only [subGroups, List.mem_filterMap, List.mem_zipIdx_iff_getElem?]
  constructor
  · rintro ⟨x, hx, hGroup⟩
    exact ⟨x.2, x.1, hx, hGroup⟩
  · rintro ⟨k, p, hp, hGroup⟩
    exact ⟨(p, k), hp, hGroup⟩

theorem graphPatterns_subst {patterns : List StatementPattern} {b : BindingSet}
    (h : ∀ name ∈ names patterns, b.contains name = true → Iri (b.value name)) :
    graphPatterns (patterns.map (·.subst b)) .empty = graphPatterns patterns b := by
  rw [graphPatterns, graphPatterns, List.flatMap_map]
  refine List.flatMap_congr fun p hp => ?_
  rw [StatementPattern.createSparqlGraphPattern_subst fun name hName =>
    h name (List.mem_flatMap.mpr ⟨p, hp, hName⟩)]

/-- The bound variables of the patterns have values that can be written into a query. -/
theorem Substitutes.iri {s : Statement} (h : r.Substitutes s) {k : Nat} {p : StatementPattern}
    (hp : r.preconditions[k]? = some p) (hMatch : p.match s = true)
    (hInvalid : r.rendersEffectInvalid (p.insertBindings s .empty) = false) {name : QString}
    (hName : name ∈ names (r.preconditions.eraseIdx k))
    (hBound : (p.insertBindings s .empty).contains name = true) :
    Iri ((p.insertBindings s .empty).value name) := by
  refine h k p hp hMatch hInvalid name ?_ hName
  exact (StatementPattern.contains_insertBindings.mp hBound).resolve_right (by rintro ⟨⟩)

theorem subQueries_eq (h : r.Substitutes r.bindingStatement) :
    r.subQueries = r.subGroups.map (graphPatterns · .empty) := by
  rw [subQueries, subGroups, List.map_filterMap]
  refine List.filterMap_congr fun x hx => ?_
  obtain ⟨p, k⟩ := x
  have hp : r.preconditions[k]? = some p := List.mem_zipIdx_iff_getElem?.mp hx
  show r.subQuery p k = (r.subGroup p k).map _
  rw [subQuery, subGroup]
  by_cases hMatch : p.match r.bindingStatement = true
  · by_cases hInvalid : r.rendersEffectInvalid (p.insertBindings r.bindingStatement .empty) = true
    · simp [hMatch, hInvalid]
    · rw [Bool.not_eq_true] at hInvalid
      have hText := graphPatterns_subst fun name hName => h.iri hp hMatch hInvalid hName
      simp [hMatch, hInvalid, hText]
  · simp [hMatch]

theorem plain_of_mem_subGroups (hPlain : ∀ p ∈ r.preconditions, Plain p)
    (h : r.Substitutes r.bindingStatement) {group : List StatementPattern} (hGroup : group ∈ r.subGroups) :
    ∀ p ∈ group, Plain p := by
  obtain ⟨k, p, hp, hSome⟩ := mem_subGroups.mp hGroup
  obtain ⟨hMatch, hInvalid, rfl⟩ := subGroup_eq_some.mp hSome
  refine List.forall_mem_map.mpr fun q hq => ?_
  refine StatementPattern.plain_subst (hPlain q (List.mem_of_mem_eraseIdx hq)) fun name hName => ?_
  exact h.iri hp hMatch hInvalid (List.mem_flatMap.mpr ⟨q, hq, hName⟩)

/-- A rule with several preconditions leaves something to ask for. -/
theorem ne_nil_of_mem_subGroups (hSeveral : 2 ≤ r.preconditions.length) {group : List StatementPattern}
    (hGroup : group ∈ r.subGroups) : group ≠ [] := by
  obtain ⟨k, p, hp, hSome⟩ := mem_subGroups.mp hGroup
  obtain ⟨-, -, rfl⟩ := subGroup_eq_some.mp hSome
  have hLess := (List.getElem?_eq_some_iff.mp hp).1
  apply List.ne_nil_of_length_pos
  rw [List.length_map, List.length_eraseIdx_of_lt hLess]
  omega

/-- The optimized query asks for the groups. -/
theorem createSparqlQuery_bound (hBound : r.bindingStatement.isValid = true)
    (hPlain : ∀ p ∈ r.preconditions, Plain p) (hSeveral : 2 ≤ r.preconditions.length)
    (h : r.Substitutes r.bindingStatement) :
    (r.subGroups = [] ∧ r.createSparqlQuery true = []) ∨
      parse (r.createSparqlQuery true) = some r.subGroups := by
  have hGroups : ∀ group ∈ r.subGroups, ∀ p ∈ group, Plain p :=
    fun _ hGroup => plain_of_mem_subGroups hPlain h hGroup
  have hSome : ∀ group ∈ r.subGroups, group ≠ [] :=
    fun _ hGroup => ne_nil_of_mem_subGroups hSeveral hGroup
  have hSelect : (!true || !r.bindingStatement.isValid) ≠ true := by simp [hBound]
  simp only [createSparqlQuery, if_neg hSelect, subQueries_eq h]
  generalize r.subGroups = groups at hGroups hSome
  cases groups with
  | nil => exact .inl ⟨rfl, rfl⟩
  | cons first rest =>
    right
    cases rest with
    | nil =>
      have hText : graphPatterns first .empty ≠ [] := by
        obtain ⟨q, patterns, rfl⟩ := List.exists_cons_of_ne_nil (hSome first List.mem_cons_self)
        simp [graphPatterns]
      rw [List.map_singleton, if_neg (by simpa using hText)]
      exact parse_patterns (hGroups first List.mem_cons_self)
    | cons second rest => exact parse_union hGroups

/-! ### The results -/

omit [Qt] in
theorem exists_split {α : Type*} {l : List α} {k : Nat} {a : α} (h : l[k]? = some a) :
    ∃ before after, l = before ++ a :: after ∧ l.eraseIdx k = before ++ after := by
  obtain ⟨hLess, rfl⟩ := List.getElem?_eq_some_iff.mp h
  refine ⟨l.take k, l.drop (k + 1), ?_, List.eraseIdx_eq_take_drop_succ l k⟩
  rw [← List.drop_eq_getElem_cons hLess, List.take_append_drop]

/-- What is known of a result of the group that leaves the precondition `p` out, where `value` is the
solution that it stands for. -/
structure Remainder (r : Rule) (p : StatementPattern) (value : QString → Node) (b : BindingSet) : Prop where
  gives : p.Gives value r.bindingStatement
  free : ∀ name ∈ p.variableNames, b.value name = .empty
  bound : ∀ q ∈ r.preconditions, ∀ name ∈ q.variableNames, name ∉ p.variableNames → b.value name ≠ .empty
  value_eq : ∀ name, name ∉ p.variableNames → b.value name = value name

variable {p : StatementPattern} {value : QString → Node} {b : BindingSet}

/-- A precondition that is merged has no other variables. -/
theorem Remainder.mergePattern_cases (h : r.Remainder p value b) {q : StatementPattern}
    (hq : q ∈ r.preconditions) (bs : BindingSet) : r.mergePattern b bs q = bs ∨
      q.variableNames ⊆ p.variableNames ∧
        r.mergePattern b bs q = q.insertBindings r.bindingStatement bs := by
  rw [mergePattern]
  split
  · exact .inl rfl
  · rename_i hNone
    refine .inr ⟨fun name hName => ?_, rfl⟩
    by_contra hOther
    exact hNone (List.any_eq_true.mpr ⟨name, hName, isValid_iff.mpr (h.bound q hq name hName hOther)⟩)

/-- The values of other variables stay as they are. -/
theorem Remainder.foldl_of_notMem (h : r.Remainder p value b) {patterns : List StatementPattern}
    (hPatterns : ∀ q ∈ patterns, q ∈ r.preconditions) {name : QString} (hName : name ∉ p.variableNames)
    (bs : BindingSet) : (patterns.foldl (r.mergePattern b) bs).value name = bs.value name := by
  induction patterns generalizing bs with
  | nil => rfl
  | cons q patterns ih =>
    rw [List.foldl_cons, ih fun q' hq' => hPatterns q' (List.mem_cons_of_mem q hq')]
    rcases h.mergePattern_cases (hPatterns q List.mem_cons_self) bs with hSame | ⟨hSubset, hMerge⟩
    · rw [hSame]
    · rw [hMerge, StatementPattern.value_insertBindings_of_notMem fun hMem => hName (hSubset hMem)]

/-- The preconditions behind `p` that are merged give the variables of `p` the values they have. -/
theorem Remainder.foldl_of_mem (h : r.Remainder p value b) {patterns : List StatementPattern}
    (hPatterns : ∀ q ∈ patterns, q ∈ r.preconditions)
    (hCopies : ∀ q ∈ patterns, q.variableNames ⊆ p.variableNames → q.Copies p) {bs : BindingSet}
    (hbs : ∀ name ∈ p.variableNames, bs.value name = value name) :
    ∀ name ∈ p.variableNames, (patterns.foldl (r.mergePattern b) bs).value name = value name := by
  induction patterns generalizing bs with
  | nil => exact hbs
  | cons q patterns ih =>
    refine ih (fun q' hq' => hPatterns q' (List.mem_cons_of_mem q hq'))
      (fun q' hq' => hCopies q' (List.mem_cons_of_mem q hq')) fun name hName => ?_
    rcases h.mergePattern_cases (hPatterns q List.mem_cons_self) bs with hSame | ⟨hSubset, hMerge⟩
    · rw [hSame, hbs name hName]
    · rw [hMerge]
      by_cases hMem : name ∈ q.variableNames
      · exact ((hCopies q List.mem_cons_self hSubset).gives h.gives).value_insertBindings bs hMem
      · rw [StatementPattern.value_insertBindings_of_notMem hMem, hbs name hName]

/-- Merging the statement into a result gives the solution back. -/
theorem Remainder.value_mergeBindingStatement (h : r.Remainder p value b) (hSelective : r.Selective)
    {k : Nat} (hp : r.preconditions[k]? = some p) : (r.mergeBindingStatement b).value = value := by
  obtain ⟨before, after, hSplit, -⟩ := exists_split hp
  have hMem : ∀ q, q ∈ before ∨ q = p ∨ q ∈ after → q ∈ r.preconditions := by
    intro q hq
    rw [hSplit, List.mem_append, List.mem_cons]
    exact hq
  have hOrdered := hSelective.ordered
  rw [hSplit, List.pairwise_append, List.pairwise_cons] at hOrdered
  obtain ⟨-, ⟨hAfter, -⟩, -⟩ := hOrdered
  funext name
  rw [mergeBindingStatement]
  by_cases hName : name ∈ p.variableNames
  · rw [hSplit, List.foldl_append, List.foldl_cons]
    refine h.foldl_of_mem (fun q hq => hMem q (.inr (.inr hq))) hAfter (fun other hOther => ?_) name hName
    have hNone : ¬ (p.variableNames.any fun name => (b.value name).isValid) = true := by
      rw [List.any_eq_true]
      rintro ⟨x, hx, hValid⟩
      exact isValid_iff.mp hValid (h.free x hx)
    rw [mergePattern, if_neg hNone]
    exact h.gives.value_insertBindings _ hOther
  · rw [h.foldl_of_notMem (fun q hq => hq) hName, h.value_eq name hName]

theorem mem_preconditions_iff {k : Nat} (hp : r.preconditions[k]? = some p) {q : StatementPattern} :
    q ∈ r.preconditions ↔ q = p ∨ q ∈ r.preconditions.eraseIdx k := by
  obtain ⟨before, after, hSplit, hRest⟩ := exists_split hp
  rw [hRest, hSplit, List.mem_append, List.mem_append, List.mem_cons]
  tauto

theorem contains_bindings {s : Statement} {name : QString} :
    (p.insertBindings s .empty).contains name = true ↔ name ∈ p.variableNames := by
  rw [StatementPattern.contains_insertBindings]
  exact or_iff_left (by rintro ⟨⟩)

/-- A pattern of the group has the values of the statement, and those of the result beside them. -/
theorem bind_subst_bindings {s : Statement} (hGives : p.Gives value s) (q : StatementPattern)
    {rest : QString → Node} (hRest : ∀ name, name ∉ p.variableNames → rest name = value name) :
    (q.subst (p.insertBindings s .empty)).bind rest = q.bind value := by
  rw [StatementPattern.bind_subst]
  congr 1
  funext name
  by_cases hName : name ∈ p.variableNames
  · rw [if_pos (contains_bindings.mpr hName), hGives.value_insertBindings _ hName]
  · rw [if_neg fun hMem => hName (contains_bindings.mp hMem), hRest name hName]

/-- The bindings already make the effect invalid, so that it is invalid whatever else is bound. -/
theorem isValid_effect_of_rendersEffectInvalid {s : Statement} (hGives : p.Gives value s)
    (h : r.rendersEffectInvalid (p.insertBindings s .empty) = true) :
    (r.effect.bind value).isValid = false := by
  have hValue : ∀ {a : NodePattern}, a.isVariable = true →
      (p.insertBindings s .empty).contains a.variableName = true →
      a.bind value = (p.insertBindings s .empty).value a.variableName := by
    intro a hVariable hBound
    cases a with
    | resource => cases hVariable
    | ofVariable name => exact (hGives.value_insertBindings _ (contains_bindings.mp hBound)).symm
  rw [rendersEffectInvalid, Bool.or_eq_true, Bool.and_eq_true, Bool.and_eq_true, Bool.and_eq_true,
    Bool.and_eq_true] at h
  rcases h with ⟨⟨hVariable, hBound⟩, hLiteral⟩ | ⟨⟨hVariable, hBound⟩, hResource⟩
  · rw [← hValue hVariable hBound] at hLiteral
    have hSubject : (r.effect.bind value).subject.isLiteral = true := hLiteral
    rw [← Bool.not_eq_true]
    intro hValid
    cases hNode : (r.effect.bind value).subject <;>
      simp_all [Statement.isValid, Node.isLiteral, Node.isResource, Node.isBlank, Node.type]
  · rw [← hValue hVariable hBound, Bool.not_eq_true'] at hResource
    have hPredicate : (r.effect.bind value).predicate.isResource = false := hResource
    simp [Statement.isValid, hPredicate]

variable {store : Store}

/-- A result of a group stands for a solution of all the preconditions. -/
theorem exists_remainder (hSelective : r.Selective) (hValid : ∀ q ∈ store, q.isValid = true)
    (hMem : r.bindingStatement.triple ∈ triples store) {k : Nat} (hp : r.preconditions[k]? = some p)
    (hMatch : p.match r.bindingStatement = true)
    (h : Solution ((r.preconditions.eraseIdx k).map
      (·.subst (p.insertBindings r.bindingStatement .empty))) store b.value) :
    ∃ value, Solution r.preconditions store value ∧ r.Remainder p value b := by
  have hIn : p ∈ r.preconditions := List.mem_of_getElem? hp
  let value : QString → Node := fun name =>
    if name ∈ p.variableNames then (p.insertBindings r.bindingStatement .empty).value name else b.value name
  have hOutside : ∀ name, name ∉ p.variableNames → b.value name = value name := fun name hName =>
    (if_neg hName).symm
  have hBind : p.bind value = r.bindingStatement.triple :=
    (StatementPattern.bind_congr fun name hName => if_pos hName).trans
      (StatementPattern.bind_insertBindings (hSelective.named p hIn) (hSelective.linear p hIn) hMatch)
  have hGives := StatementPattern.gives_of_bind hBind
  have hFree : ∀ name, (p.insertBindings r.bindingStatement .empty).contains name = true →
      b.value name = .empty := by
    intro name hBound
    refine h.unbound name fun hName => ?_
    obtain ⟨_, hPattern, hName⟩ := List.mem_flatMap.mp hName
    obtain ⟨q, -, rfl⟩ := List.mem_map.mp hPattern
    have hNot := (StatementPattern.mem_variableNames_subst.mp hName).2
    rw [hBound] at hNot
    cases hNot
  refine ⟨value, ⟨fun q hq => ?_, fun name hName => ?_⟩, hGives, fun name hName =>
    hFree name (contains_bindings.mpr hName), fun q hq name hName hOther => ?_, hOutside⟩
  · rcases (mem_preconditions_iff hp).mp hq with rfl | hq
    · rw [hBind]
      exact hMem
    · rw [← bind_subst_bindings hGives q hOutside]
      exact h.triple _ (List.mem_map_of_mem hq)
  · have hNot : name ∉ p.variableNames := fun hMem => hName (List.mem_flatMap.mpr ⟨p, hIn, hMem⟩)
    rw [← hOutside name hNot]
    refine h.unbound name fun hMem => ?_
    obtain ⟨_, hPattern, hMem⟩ := List.mem_flatMap.mp hMem
    obtain ⟨q, hq, rfl⟩ := List.mem_map.mp hPattern
    refine hName (List.mem_flatMap.mpr ⟨q, List.mem_of_mem_eraseIdx hq, ?_⟩)
    exact (StatementPattern.mem_variableNames_subst.mp hMem).1
  · refine h.value_ne_empty hValid ?_
    have hRest := ((mem_preconditions_iff hp).mp hq).resolve_left (by rintro rfl; exact hOther hName)
    refine List.mem_flatMap.mpr ⟨_, List.mem_map_of_mem hRest, ?_⟩
    rw [StatementPattern.mem_variableNames_subst, ← Bool.not_eq_true, contains_bindings]
    exact ⟨hName, hOther⟩

/-- A solution of the preconditions that uses the statement is found by the group that leaves out the
precondition which it makes the statement. -/
theorem solution_group (h : Solution r.preconditions store value) {k : Nat}
    (hp : r.preconditions[k]? = some p) (hBind : p.bind value = r.bindingStatement.triple) :
    Solution ((r.preconditions.eraseIdx k).map (·.subst (p.insertBindings r.bindingStatement .empty)))
      store (fun name => if name ∈ p.variableNames then .empty else value name) := by
  have hGives := StatementPattern.gives_of_bind hBind
  constructor
  · refine List.forall_mem_map.mpr fun q hq => ?_
    rw [bind_subst_bindings hGives q fun name hName => if_neg hName]
    exact h.triple q (List.mem_of_mem_eraseIdx hq)
  · intro name hName
    by_cases hMem : name ∈ p.variableNames
    · exact if_pos hMem
    · rw [if_neg hMem]
      refine h.unbound name fun hUsed => ?_
      obtain ⟨q, hq, hUsed⟩ := List.mem_flatMap.mp hUsed
      have hRest := ((mem_preconditions_iff hp).mp hq).resolve_left (by rintro rfl; exact hMem hUsed)
      refine hName (List.mem_flatMap.mpr ⟨_, List.mem_map_of_mem hRest, ?_⟩)
      rw [StatementPattern.mem_variableNames_subst, ← Bool.not_eq_true, contains_bindings]
      exact ⟨hUsed, hMem⟩

theorem remainder_of_solution (h : Solution r.preconditions store value)
    (hValid : ∀ q ∈ store, q.isValid = true) (hBind : p.bind value = r.bindingStatement.triple)
    (hb : b.value = fun name => if name ∈ p.variableNames then .empty else value name) :
    r.Remainder p value b where
  gives := StatementPattern.gives_of_bind hBind
  free name hName := by
    rw [hb]
    exact if_pos hName
  bound q hq name hName hOther := by
    rw [hb]
    exact (if_neg hOther).trans_ne (h.value_ne_empty hValid (List.mem_flatMap.mpr ⟨q, hq, hName⟩))
  value_eq name hName := by
    rw [hb]
    exact if_neg hName

end Rule

namespace InferenceModel

/-- The optimized query of a rule finds the instances that use the bound statement, and nothing
else. -/
theorem finds_of_bound {select : QString → Store → List BindingSet} (hSelect : Answers select)
    {m : InferenceModel} {r : Rule} (hValid : ∀ q ∈ m.parentModel, q.isValid = true)
    (hQueries : m.optimizedQueries = true) (hPlain : ∀ p ∈ r.preconditions, Plain p)
    (hSelective : r.Selective) (hBound : r.bindingStatement.isValid = true)
    (hMem : r.bindingStatement.triple ∈ triples m.parentModel)
    (hSubstitutes : r.Substitutes r.bindingStatement) : Finds select m r := by
  have hQuery := Rule.createSparqlQuery_bound hBound hPlain hSelective.several hSubstitutes
  constructor
  · intro b hb
    rw [ruleBindings, hQueries] at hb
    rcases hQuery with ⟨-, hNone⟩ | hParse
    · simp [hNone] at hb
    split at hb
    · cases hb
    obtain ⟨group, hGroup, hSolution⟩ := hSelect.sound hParse hValid hb
    obtain ⟨k, p, hp, hSome⟩ := Rule.mem_subGroups.mp hGroup
    obtain ⟨hMatch, -, rfl⟩ := Rule.subGroup_eq_some.mp hSome
    obtain ⟨value, hValue, hRemainder⟩ := Rule.exists_remainder hSelective hValid hMem hp hMatch hSolution
    have hMerge := hRemainder.value_mergeBindingStatement hSelective hp
    refine ⟨value, hValue, ?_, ?_⟩
    · rw [Rule.bindEffect, hMerge]
    · rw [Rule.bindPreconditions, hMerge]
  · intro value hSolution hEffect hNeeds
    obtain ⟨p, hIn, hBind⟩ := List.mem_map.mp (hNeeds hBound)
    obtain ⟨k, hp⟩ := List.getElem?_of_mem hIn
    have hGives := StatementPattern.gives_of_bind hBind
    have hMatch := StatementPattern.match_of_bind (hPlain p hIn) hBind
    have hInvalid : r.rendersEffectInvalid (p.insertBindings r.bindingStatement .empty) = false := by
      by_contra hNot
      rw [Rule.isValid_effect_of_rendersEffectInvalid hGives (by simpa using hNot)] at hEffect
      cases hEffect
    have hGroup := Rule.mem_subGroups.mpr ⟨k, p, hp, Rule.subGroup_eq_some.mpr ⟨hMatch, hInvalid, rfl⟩⟩
    have hParse : parse (r.createSparqlQuery true) = some r.subGroups := by
      refine hQuery.resolve_left fun hNone => ?_
      rw [hNone.1] at hGroup
      cases hGroup
    obtain ⟨b, hb, hRest⟩ :=
      hSelect.complete hParse hValid hGroup (Rule.solution_group hSolution hp hBind)
    have hRemainder := Rule.remainder_of_solution hSolution hValid hBind hRest
    refine ⟨b, ?_, ?_⟩
    · have hSome : (r.createSparqlQuery true).isEmpty = false := by
        cases hText : r.createSparqlQuery true with
        | nil =>
          rw [hText] at hParse
          cases hParse
        | cons => rfl
      rw [ruleBindings, hQueries]
      simpa [hSome] using hb
    · rw [Rule.bindEffect, hRemainder.value_mergeBindingStatement hSelective hp]

/-! ### Rules of one precondition -/

section Single

variable {select : QString → Store → List BindingSet} {createRandomUri : Nat → QUrl} {m : InferenceModel}

theorem createSparqlQuery_single {r : Rule} (hSingle : r.preconditions.length = 1)
    (hBound : r.bindingStatement.isValid = true) : r.createSparqlQuery true = [] := by
  obtain ⟨p, hp⟩ := List.length_eq_one_iff.mp hSingle
  have hSelect : (!true || !r.bindingStatement.isValid) ≠ true := by simp [hBound]
  have hQueries : r.subQueries = [] ∨ r.subQueries = [[]] := by
    simp only [Rule.subQueries, Rule.subQuery, hp, List.zipIdx_singleton, List.filterMap_cons,
      List.filterMap_nil]
    split <;> rename_i hQuery
    · exact .inl rfl
    · split at hQuery
      · split at hQuery
        · cases hQuery
        · cases hQuery
          exact .inr rfl
      · cases hQuery
  rw [Rule.createSparqlQuery, if_neg hSelect]
  rcases hQueries with hNone | hOne
  · rw [hNone]
    rfl
  · rw [hOne]
    rfl

/-- A rule that is bound to a statement has nothing left to ask for, and infers nothing. -/
theorem inferRule_single {again : Statement → InferenceModel → Option (Nat × InferenceModel)}
    {recurse : Bool} {k : Nat} {r : Rule} (hQueries : m.optimizedQueries = true)
    (hr : m.rules[k]? = some r) (hSingle : r.preconditions.length = 1)
    (hBound : r.bindingStatement.isValid = true) :
    inferRule select createRandomUri again recurse k m = some (0, m) := by
  have hBindings : m.ruleBindings select r = [] := by
    rw [ruleBindings, hQueries, createSparqlQuery_single hSingle hBound]
    rfl
  simp [inferRule, hr, hBindings]

/-- What the model stores, and how its rules ask. -/
structure Idle (m : InferenceModel) (store : Store) (m' : InferenceModel) : Prop where
  parentModel : m'.parentModel = store
  optimizedQueries : m'.optimizedQueries = true
  rules : m'.rules.map Rule.unbound = m.rules.map Rule.unbound

theorem Idle.bindRule {store : Store} {m' : InferenceModel} (h : Idle m store m') (k : Nat) (s : Statement) :
    Idle m store (m'.bindRule k s) :=
  ⟨h.parentModel, h.optimizedQueries, ((same_bindRule m' k s).rules).trans h.rules⟩

theorem Idle.single {store : Store} {m' : InferenceModel} (h : Idle m store m')
    (hSingle : ∀ r ∈ m.rules, r.preconditions.length = 1) {k : Nat} {r : Rule} (hr : m'.rules[k]? = some r) :
    r.preconditions.length = 1 := by
  have hMem : r.unbound ∈ m.rules.map Rule.unbound := h.rules ▸ List.mem_map_of_mem (List.mem_of_getElem? hr)
  obtain ⟨r₀, hr₀, hEq⟩ := List.mem_map.mp hMem
  have hPreconditions : r₀.preconditions = r.preconditions := congrArg (fun r => r.preconditions) hEq
  rw [← hPreconditions]
  exact hSingle r₀ hr₀

theorem Idle.inferStatement {store : Store} {m' : InferenceModel} (h : Idle m store m')
    (hSingle : ∀ r ∈ m.rules, r.preconditions.length = 1) {n : Nat} {recurse : Bool} {s : Statement}
    (hs : s.isValid = true) : ∃ x, InferenceModel.inferStatement select createRandomUri (n + 1) recurse s m' =
      some x ∧ Idle m store x.2 := by
  have hTurns : ∀ (ks : List Nat) (acc : Nat × InferenceModel), Idle m store acc.2 → ∃ x,
      ks.foldlM (inferMatching select createRandomUri
        (InferenceModel.inferStatement select createRandomUri n true) recurse s) acc = some x ∧
        Idle m store x.2 := by
    intro ks
    induction ks with
    | nil => exact fun acc hAcc => ⟨acc, rfl, hAcc⟩
    | cons k ks ih =>
      intro acc hAcc
      have hTurn : ∃ y, inferMatching select createRandomUri
          (InferenceModel.inferStatement select createRandomUri n true) recurse s acc k = some y ∧
          Idle m store y.2 := by
        simp only [inferMatching]
        cases hr : acc.2.rules[k]? with
        | none => exact ⟨acc, rfl, hAcc⟩
        | some r =>
          by_cases hMatch : r.match s = true
          · have hBound := hAcc.bindRule k s
            have hRule : (acc.2.bindRule k s).rules[k]? = some (r.bindToStatement s) := by
              simp [InferenceModel.bindRule, hr]
            have hOne := hBound.single hSingle hRule
            simp only [if_pos hMatch, inferRule_single hBound.optimizedQueries hRule hOne hs]
            exact ⟨_, rfl, hBound⟩
          · simp only [if_neg hMatch]
            exact ⟨acc, rfl, hAcc⟩
      obtain ⟨y, hCall, hIdle⟩ := hTurn
      rw [List.foldlM_cons, hCall]
      exact ih y hIdle
  exact hTurns _ (0, m') h

/-- With optimized queries, rules of one precondition infer nothing in any calls of `addStatement`. -/
theorem optimized_single (hQueries : m.optimizedQueries = true)
    (hSingle : ∀ r ∈ m.rules, r.preconditions.length = 1) (statements : List Statement) (fuel : Nat) :
    ∃ m', Runs.run (added select createRandomUri (fuel + 1)) m statements = some m' ∧
      m'.parentModel = statements.foldl Store.addStatement m.parentModel := by
  have hRun : ∀ (statements : List Statement) (store : Store) (m₁ : InferenceModel), Idle m store m₁ →
      ∃ m', Runs.run (added select createRandomUri (fuel + 1)) m₁ statements = some m' ∧
        Idle m (statements.foldl Store.addStatement store) m' := by
    intro statements
    induction statements with
    | nil => exact fun store m₁ h => ⟨m₁, rfl, h⟩
    | cons s statements ih =>
      intro store m₁ h
      by_cases hs : s.isValid = true
      · have hAdded : Idle m (Store.addStatement store s) (m₁.add s) :=
          ⟨congrArg (Store.addStatement · s) h.parentModel, h.optimizedQueries, h.rules⟩
        obtain ⟨x, hCall, hIdle⟩ := hAdded.inferStatement hSingle hs
        obtain ⟨m', hRest, h'⟩ := ih _ x.2 hIdle
        refine ⟨m', ?_, h'⟩
        rw [Runs.run_cons_of_step (t := x.2) (by rw [added, addStatement, if_pos hs, hCall]; rfl)]
        exact hRest
      · have hSame : Store.addStatement store s = store := if_neg hs
        obtain ⟨m', hRest, h'⟩ := ih store m₁ h
        refine ⟨m', ?_, ?_⟩
        · rw [Runs.run_cons_of_step (t := m₁) (by rw [added, addStatement, if_neg hs]; rfl)]
          exact hRest
        · rwa [List.foldl_cons, hSame]
  obtain ⟨m', hCall, h⟩ := hRun statements m.parentModel m ⟨rfl, hQueries, rfl⟩
  exact ⟨m', hCall, h.parentModel⟩

end Single

/-! ### Runs -/

variable {select : QString → Store → List BindingSet} {createRandomUri : Nat → QUrl}
  {m m' : InferenceModel} {S U : Set Statement}

/-- What the rules say of the preconditions and effects is not changed by binding them. -/
theorem Same.forall_rules (h : Same m m') {P : Rule → Prop} (hP : ∀ r : Rule, P r.unbound ↔ P r)
    (hRules : ∀ r ∈ m.rules, P r) : ∀ r ∈ m'.rules, P r := by
  intro r hr
  have hMem : r.unbound ∈ m.rules.map Rule.unbound := h.rules ▸ List.mem_map_of_mem hr
  obtain ⟨r₀, hr₀, hEq⟩ := List.mem_map.mp hMem
  rw [← hP, ← hEq, hP]
  exact hRules r₀ hr₀

theorem Same.plainRules (h : Same m m') (hPlain : PlainRules m.rules) : PlainRules m'.rules :=
  h.forall_rules (P := fun r => ∀ p ∈ r.preconditions, Plain p) (fun _ => Iff.rfl) hPlain

theorem Same.unmatched (h : Same m m')
    (hUnmatched : Unmatched createRandomUri m.rules m.compressedStatements) :
    Unmatched createRandomUri m'.rules m'.compressedStatements := by
  rw [h.compressedStatements]
  exact h.forall_rules (P := fun r => ∀ p ∈ r.preconditions,
    ∀ q ∈ Metadata createRandomUri m.compressedStatements, p.match q = false) (fun _ => Iff.rfl) hUnmatched

theorem finite_derivable (m : InferenceModel) :
    {t | (system m.rules).Derivable (triples m.parentModel) t}.Finite := by
  refine (finite_triplesOver (nodesOf m.parentModel m.rules)).subset fun t ht => ?_
  refine ht.mem_of_closed (triples_subset_triplesOver _ _) fun i hi => ?_
  exact hi.conclusion (conclusion_mem_triplesOver hi.mem hi.premises)

/-- A metadata statement is taken for no precondition. -/
theorem substitutes_of_metadata {t : Statement}
    (hUnmatched : Unmatched createRandomUri m.rules m.compressedStatements)
    (ht : t.triple ∈ Statement.triple '' Metadata createRandomUri m.compressedStatements) {r : Rule}
    (hr : r ∈ m.rules) : r.Substitutes t := by
  obtain ⟨q, hq, hTriple⟩ := ht
  intro k p hp hMatch
  have hSame : p.match q = p.match t := by
    show p.match q.triple = p.match t.triple
    rw [hTriple]
  rw [← hSame, hUnmatched r hr p (List.mem_of_getElem? hp) q hq] at hMatch
  cases hMatch

/-- What the engine needs to know of a model whose queries are optimized. -/
theorem engine_of_optimized (hSelect : Answers select) (hUris : ∀ k, (createRandomUri k).isEmpty = false)
    (hValid : ∀ q ∈ m.parentModel, q.isValid = true) (hPlain : PlainRules m.rules)
    (hUnmatched : Unmatched createRandomUri m.rules m.compressedStatements)
    (hQueries : m.optimizedQueries = true) (hSelective : ∀ r ∈ m.rules, r.Selective)
    (hSubstitutes : ∀ t, (system m.rules).Derivable (triples m.parentModel) t →
      ∀ r ∈ m.rules, r.Substitutes t) :
    Engine select createRandomUri {t | (system m.rules).Derivable (triples m.parentModel) t} m where
  uris := hUris
  plain := hPlain
  unmatched := hUnmatched
  finite := finite_derivable m
  covers _ ht := .base ht
  closed _ hi hPremises := System.Derivable.step hi hPremises
  finds {m' r} hRun hr hSome hMem := by
    have hGrown := hRun.derives hPlain hUnmatched
    have hStored := hGrown.valid hValid
    obtain ⟨r₀, hr₀, hEq⟩ := List.mem_map.mp hr
    have hPreconditions : r₀.preconditions = r.preconditions := congrArg (fun r => r.preconditions) hEq
    have hPatterns : ∀ p ∈ r.preconditions, Plain p := hPreconditions ▸ hPlain r₀ hr₀
    by_cases hBound : r.bindingStatement.isValid = true
    · refine finds_of_bound hSelect hStored (hGrown.same.optimizedQueries.trans hQueries) hPatterns ?_ hBound
        (hMem hBound) ?_
      · rw [← Rule.selective_unbound, ← hEq, Rule.selective_unbound]
        exact hSelective r₀ hr₀
      · have hSame : r₀.Substitutes r.bindingStatement → r.Substitutes r.bindingStatement := by
          intro h
          have hUnbound : r.unbound.Substitutes r.bindingStatement := hEq ▸ h
          exact hUnbound
        apply hSame
        obtain ⟨q, hq, hTriple⟩ := hMem hBound
        rcases hGrown.new q hq with hOld | hMeta | ⟨k, -, -, -, hDerives⟩
        · exact hSubstitutes r.bindingStatement.triple (.base ⟨q, hOld, hTriple⟩) r₀ hr₀
        · exact substitutes_of_metadata hUnmatched ⟨q, hMeta, hTriple⟩ hr₀
        · exact hSubstitutes r.bindingStatement.triple (hTriple ▸ hDerives.derivable) r₀ hr₀
    · exact finds_of_query hSelect hStored hPatterns hSome (.inr (by simpa using hBound))

/-- The model `m'` holds what is derivable from the triples `S`, and beside that only metadata. -/
structure Reached (createRandomUri : Nat → QUrl) (m : InferenceModel) (S : Set Statement)
    (m' : InferenceModel) : Prop where
  same : Same m m'
  valid : ∀ q ∈ m'.parentModel, q.isValid = true
  closed : (system m.rules).Closed (triples m'.parentModel)
  mem : S ⊆ triples m'.parentModel
  derivable : ∀ t ∈ triples m'.parentModel, (system m.rules).Derivable S t ∨
    t ∈ Statement.triple '' Metadata createRandomUri m.compressedStatements

theorem Reached.iff (h : Reached createRandomUri m S m') {t : Statement}
    (ht : t ∉ Statement.triple '' Metadata createRandomUri m.compressedStatements) :
    t ∈ triples m'.parentModel ↔ (system m.rules).Derivable S t :=
  ⟨fun hMem => (h.derivable t hMem).resolve_right ht, fun hDerivable => hDerivable.mem_of_closed h.mem h.closed⟩

/-- What is derivable with the help of metadata is derivable without. -/
theorem derivable_of_metadata (hPlain : PlainRules m.rules)
    (hUnmatched : Unmatched createRandomUri m.rules m.compressedStatements) {T : Set Statement}
    (hT : ∀ t ∈ T, (system m.rules).Derivable S t ∨
      t ∈ Statement.triple '' Metadata createRandomUri m.compressedStatements) {t : Statement}
    (h : (system m.rules).Derivable T t) : (system m.rules).Derivable S t ∨
      t ∈ Statement.triple '' Metadata createRandomUri m.compressedStatements := by
  induction h with
  | base ht => exact hT _ ht
  | step hi _ ih =>
    exact .inl (.step hi fun p hp => (ih p hp).resolve_right (hUnmatched.notMem hPlain hi hp))

theorem Reached.derivable_add (h : Reached createRandomUri m S m') (hPlain : PlainRules m.rules)
    (hUnmatched : Unmatched createRandomUri m.rules m.compressedStatements) {s t : Statement}
    (hs : s.isValid = true) (ht : (system m.rules).Derivable (triples (m'.add s).parentModel) t) :
    (system m.rules).Derivable (insert s.triple S) t ∨
      t ∈ Statement.triple '' Metadata createRandomUri m.compressedStatements := by
  refine derivable_of_metadata hPlain hUnmatched (fun q hq => ?_) ht
  rcases (triples_add hs).mp hq with rfl | hq
  · exact .inl (.base (Set.mem_insert _ _))
  · exact (h.derivable q hq).imp_left (System.Derivable.mono (Set.subset_insert _ _))

/-- A call of `addStatement` keeps the model complete. -/
theorem Reached.addStatement (h : Reached createRandomUri m S m') (hPlain : PlainRules m.rules)
    (hUnmatched : Unmatched createRandomUri m.rules m.compressedStatements) {s : Statement}
    (hs : s.isValid = true) (hEngine : Engine select createRandomUri U (m'.add s)) :
    ∃ m'', (∃ n, ∀ fuel, n ≤ fuel → added select createRandomUri fuel m' s = some m'') ∧
      Reached createRandomUri m (insert s.triple S) m'' := by
  have hSystem := system_congr h.same.rules
  obtain ⟨m'', ⟨n, hCall⟩, hRun, hClosed⟩ := hEngine.addStatement hs (hSystem ▸ h.closed)
  have hGrown := hRun.derives hEngine.plain hEngine.unmatched
  have hSame : Same m (m'.add s) := ⟨h.same.rules, h.same.compressedStatements, h.same.optimizedQueries⟩
  rw [system_congr hSame.rules] at hGrown
  refine ⟨m'', ⟨n, fun fuel hFuel => by rw [added, hCall fuel hFuel]; rfl⟩, hSame.trans hGrown.same,
    hGrown.valid fun q hq => ?_, hSystem ▸ hClosed, fun t ht => ?_, fun t ht => ?_⟩
  · rcases Store.mem_addStatement.mp hq with ⟨rfl, hq⟩ | hq
    · exact hq
    · exact h.valid q hq
  · apply hGrown.triples_subset
    rw [triples_add hs]
    exact ht.imp_right fun hOld => h.mem hOld
  · obtain ⟨q, hq, rfl⟩ := ht
    rcases hGrown.new q hq with hOld | hMeta | ⟨k, -, -, -, hDerives⟩
    · exact h.derivable_add hPlain hUnmatched hs (.base ⟨q, hOld, rfl⟩)
    · rw [hSame.compressedStatements] at hMeta
      exact .inr ⟨q, hMeta, rfl⟩
    · exact h.derivable_add hPlain hUnmatched hs hDerives.derivable

/-- The triples of the statements. -/
def triplesOf (statements : List Statement) : Set Statement := {t | ∃ s ∈ statements, s.triple = t}

/-- Calls of `addStatement` keep the model complete, where the engine finds the instances after each. -/
theorem Reached.addStatements (hPlain : PlainRules m.rules)
    (hUnmatched : Unmatched createRandomUri m.rules m.compressedStatements) {statements : List Statement}
    (hStatements : ∀ s ∈ statements, s.isValid = true) (h : Reached createRandomUri m S m')
    (hEngine : ∀ {T m' s}, Reached createRandomUri m T m' → T ⊆ S ∪ triplesOf statements →
      s ∈ statements → ∃ U, Engine select createRandomUri U (m'.add s)) :
    ∃ m'', (∃ n, ∀ fuel, n ≤ fuel →
        Runs.run (added select createRandomUri fuel) m' statements = some m'') ∧
      Reached createRandomUri m (S ∪ triplesOf statements) m'' := by
  induction statements generalizing m' S with
  | nil =>
    have hNone : S ∪ triplesOf [] = S := by simp [triplesOf]
    exact ⟨m', ⟨0, fun _ _ => rfl⟩, hNone.symm ▸ h⟩
  | cons s statements ih =>
    have hAll : insert s.triple S ∪ triplesOf statements = S ∪ triplesOf (s :: statements) := by
      ext t
      simp only [triplesOf, Set.mem_union, Set.mem_insert_iff, Set.mem_ofPred_eq, List.exists_mem_cons_iff]
      tauto
    obtain ⟨U, hFirst⟩ := hEngine h Set.subset_union_left List.mem_cons_self
    obtain ⟨m₁, ⟨n₁, hCall₁⟩, h₁⟩ :=
      h.addStatement hPlain hUnmatched (hStatements s List.mem_cons_self) hFirst
    obtain ⟨m'', ⟨n₂, hCall₂⟩, h₂⟩ := ih (fun s' hs' => hStatements s' (List.mem_cons_of_mem s hs')) h₁
      fun hT hSubset hs' => hEngine hT (hAll ▸ hSubset) (List.mem_cons_of_mem s hs')
    refine ⟨m'', ⟨max n₁ n₂, fun fuel hFuel => ?_⟩, hAll ▸ h₂⟩
    rw [Runs.run_cons_of_step (hCall₁ fuel (by omega))]
    exact hCall₂ fuel (by omega)

/-- Calls of `addStatement` reach what is derivable, with plain queries, and with optimized ones if each
rule substitutes what it is bound to. -/
theorem addStatements_reached (hSelect : Answers select) (hUris : ∀ k, (createRandomUri k).isEmpty = false)
    (hPlain : PlainRules m.rules)
    (hUnmatched : Unmatched createRandomUri m.rules m.compressedStatements)
    (hValid : ∀ q ∈ m.parentModel, q.isValid = true)
    (hClosed : (system m.rules).Closed (triples m.parentModel)) {statements : List Statement}
    (hStatements : ∀ s ∈ statements, s.isValid = true)
    (hOptimized : m.optimizedQueries = true → (∀ r ∈ m.rules, r.Selective) ∧
      ∀ t, (system m.rules).Derivable (triples m.parentModel ∪ triplesOf statements) t →
        ∀ r ∈ m.rules, r.Substitutes t) :
    ∃ m'', (∃ n, ∀ fuel, n ≤ fuel →
        Runs.run (added select createRandomUri fuel) m statements = some m'') ∧
      Reached createRandomUri m (triples m.parentModel ∪ triplesOf statements) m'' := by
  have hStart : Reached createRandomUri m (triples m.parentModel) m :=
    ⟨.refl m, hValid, hClosed, fun _ ht => ht, fun _ ht => .inl (.base ht)⟩
  refine hStart.addStatements hPlain hUnmatched hStatements fun {T m' s} h hSubset hs => ?_
  have hSame : Same m (m'.add s) := ⟨h.same.rules, h.same.compressedStatements, h.same.optimizedQueries⟩
  have hStored : ∀ q ∈ (m'.add s).parentModel, q.isValid = true := by
    intro q hq
    rcases Store.mem_addStatement.mp hq with ⟨rfl, hq⟩ | hq
    · exact hq
    · exact h.valid q hq
  cases hQueries : m.optimizedQueries with
  | false =>
    exact ⟨_, engine_of_plain hSelect hUris hStored (hSame.plainRules hPlain) (hSame.unmatched hUnmatched)
      (hSame.optimizedQueries.trans hQueries)⟩
  | true =>
    obtain ⟨hSelective, hSubstitutes⟩ := hOptimized hQueries
    refine ⟨_, engine_of_optimized hSelect hUris hStored (hSame.plainRules hPlain)
      (hSame.unmatched hUnmatched) (hSame.optimizedQueries.trans hQueries)
      (hSame.forall_rules Rule.selective_unbound hSelective) fun t ht => ?_⟩
    refine hSame.forall_rules (fun _ => Iff.rfl) fun r hr => ?_
    rw [system_congr hSame.rules] at ht
    rcases h.derivable_add hPlain hUnmatched (hStatements s hs) ht with hDerivable | hMeta
    · refine hSubstitutes t (hDerivable.mono (Set.insert_subset ?_ hSubset)) r hr
      exact .inr ⟨s, hs, rfl⟩
    · obtain ⟨q, hq, rfl⟩ := hMeta
      exact substitutes_of_metadata hUnmatched ⟨q, hq, rfl⟩ hr

/-- The nodes of the triple are IRIs that can be written into a query. -/
structure IriTriple (t : Statement) : Prop where
  subject : Iri t.subject
  predicate : Iri t.predicate
  object : Iri t.object

/-- A constant of the pattern is an IRI. -/
def IriPattern : NodePattern → Prop
  | .resource n => Iri n
  | .ofVariable _ => True

theorem IriTriple.value {t : Statement} (h : IriTriple t) {p : StatementPattern} {value : QString → Node}
    (hGives : p.Gives value t) {name : QString} (hName : name ∈ p.variableNames) : Iri (value name) := by
  simp only [StatementPattern.variableNames, List.mem_append] at hName
  rcases hName with hName | hName | hName
  · rw [hGives.subject name hName]
    exact h.subject
  · rw [hGives.predicate name hName]
    exact h.predicate
  · rw [hGives.object name hName]
    exact h.object

/-- Rules whose effects name IRIs infer triples of IRIs from such triples. -/
theorem iriTriple_of_derivable {rules : List Rule}
    (hEffects : ∀ r ∈ rules, IriPattern r.effect.subjectPattern ∧ IriPattern r.effect.predicatePattern ∧
      IriPattern r.effect.objectPattern) (hS : ∀ t ∈ S, IriTriple t) {t : Statement}
    (h : (system rules).Derivable S t) : IriTriple t := by
  induction h with
  | base ht => exact hS _ ht
  | @step i hi _ ih =>
    obtain ⟨hRule, hUnbound, hValid⟩ := hi
    obtain ⟨r, hr, hEq⟩ := List.mem_map.mp hRule
    have hFull := Select.full_of_isValid hValid
    have hNode : ∀ {a : NodePattern}, IriPattern a → a.bind i.2 ≠ .empty → Iri (a.bind i.2) := by
      intro a ha hSome
      cases a with
      | resource n => exact ha
      | ofVariable name =>
        have hName : name ∈ names i.1.preconditions := by
          by_contra hNot
          exact hSome (hUnbound name hNot)
        obtain ⟨p, hp, hName⟩ := List.mem_flatMap.mp hName
        exact (ih _ (List.mem_map_of_mem hp)).value (StatementPattern.gives_of_bind rfl) hName
    have hEffect : r.effect = i.1.effect := congrArg (fun r => r.effect) hEq
    obtain ⟨hSubject, hPredicate, hObject⟩ := hEffect ▸ hEffects r hr
    exact ⟨hNode hSubject hFull.1, hNode hPredicate hFull.2.1, hNode hObject hFull.2.2⟩

/-- A rule substitutes triples of IRIs. -/
theorem IriTriple.substitutes {t : Statement} (h : IriTriple t) {r : Rule} (hSelective : r.Selective) :
    r.Substitutes t := by
  intro k p hp hMatch _ name hName _
  have hIn : p ∈ r.preconditions := List.mem_of_getElem? hp
  have hBind := StatementPattern.bind_insertBindings (hSelective.named p hIn) (hSelective.linear p hIn) hMatch
  exact h.value (StatementPattern.gives_of_bind hBind) hName

end InferenceModel

end Qt

section Example

namespace InferenceModel

local instance optimizedQueriesQt : Qt := asciiQt

theorem selective_transitive : ∀ r ∈ [RuleSet.rdfs5a, RuleSet.rdfs8], r.Selective := by
  intro r hr
  rcases List.mem_pair.mp hr with rfl | rfl
  all_goals
    refine ⟨by decide, ?_, by decide, ?_⟩
    · intro p hp
      rcases List.mem_pair.mp hp with rfl | rfl <;> exact ⟨trivial, rfl, trivial⟩
    · refine List.pairwise_pair.mpr fun hSubset => absurd hSubset ?_
      decide

def subClassStatements : List Statement :=
  [⟨.ofUri (urn "p" legal_p), .ofUri RDFS.subClassOf, .ofUri (urn "q" legal_q), .empty⟩,
    ⟨.ofUri (urn "q" legal_q), .ofUri RDFS.subClassOf, .ofUri (urn "r" legal_r), .empty⟩]

/-- The node is a resource whose URI has no percent sign. -/
def isIri : Node → Bool
  | .resource u _ => !u.encoded.contains '%'
  | _ => false

theorem iri_of_isIri {n : Node} (h : isIri n = true) : Iri n := by
  cases n with
  | empty | blank | literal => cases h
  | resource u hu => exact ⟨rfl, QString.markersAbove_of_notMem (by simpa [isIri] using h)⟩

theorem iriTriple_subClassStatements : ∀ t ∈ triplesOf subClassStatements, IriTriple t := by
  rintro t ⟨s, hs, rfl⟩
  rcases List.mem_pair.mp hs with rfl | rfl
  all_goals exact ⟨iri_of_isIri (by decide), iri_of_isIri (by decide), iri_of_isIri (by decide)⟩

theorem optimized_single_copyRule :
    ∃ m', Runs.run (added Select.select countedUri 1)
        { emptyModel [copyRule] with optimizedQueries := true } [plainStatement] = some m' ∧
      m'.parentModel = [plainStatement].foldl Store.addStatement [] :=
  optimized_single (m := { emptyModel [copyRule] with optimizedQueries := true }) rfl (by decide)
    [plainStatement] 0

end InferenceModel

end Example

end Inference

end Soprano
