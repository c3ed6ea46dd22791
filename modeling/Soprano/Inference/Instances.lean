import Soprano.Inference.InferenceModel
import Soprano.Library.Saturation

/-! The instances of the rules of an inference model, and how the queries of the rules find them. -/

namespace Soprano

namespace Inference

open Saturation Sparql Vocabulary

section Qt

variable [Qt]

/-! ### Patterns and their values -/

theorem isValid_iff {n : Node} : n.isValid = true ↔ n ≠ .empty := by
  rw [Node.isValid, Bool.not_eq_true', ← Bool.not_eq_true, isEmpty_eq]

namespace NodePattern

theorem match_of_bind {p : NodePattern} (hPlain : PlainPattern p) {value : QString → Node} {n : Node}
    (h : p.bind value = n) : p.match n = true := by
  cases p with
  | ofVariable => rfl
  | resource m =>
    obtain rfl : m = n := h
    cases m with
    | empty | blank => cases hPlain
    | resource => simp [NodePattern.match, Node.operatorEq]
    | literal v hv =>
      show v.operatorEq v = true
      cases v with
      | null => cases hPlain
      | plain => exact (LiteralValue.operatorEq_iff rfl).mpr rfl
      | typed => exact hPlain.1

end NodePattern

namespace StatementPattern

/-- A pattern matches the statements whose triples its values give. -/
theorem match_of_bind {p : StatementPattern} (hPlain : Plain p) {value : QString → Node}
    {s : Statement} (h : p.bind value = s.triple) : p.match s = true := by
  have hSubject := NodePattern.match_of_bind hPlain.subject (congrArg Statement.subject h)
  have hPredicate := NodePattern.match_of_bind hPlain.predicate (congrArg Statement.predicate h)
  have hObject := NodePattern.match_of_bind hPlain.object (congrArg Statement.object h)
  have hSame : p.match s.triple = p.match s := rfl
  rw [← hSame, StatementPattern.match, hSubject, hPredicate, hObject]
  rfl

/-- A variable of a pattern has a value that stands in the triple. -/
theorem value_eq {p : StatementPattern} (value : QString → Node) {name : QString}
    (hName : name ∈ p.variableNames) : value name = (p.bind value).subject ∨
      value name = (p.bind value).predicate ∨ value name = (p.bind value).object := by
  have hNode : ∀ {q : NodePattern}, name ∈ q.variableNames → value name = q.bind value := by
    intro q hMem
    cases q with
    | resource => cases hMem
    | ofVariable other =>
      obtain rfl : name = other := by simpa [NodePattern.variableNames] using hMem
      rfl
  simp only [StatementPattern.variableNames, List.mem_append] at hName
  rcases hName with hName | hName | hName
  · exact .inl (hNode hName)
  · exact .inr (.inl (hNode hName))
  · exact .inr (.inr (hNode hName))

theorem value_ne_empty {p : StatementPattern} {value : QString → Node} {s : Statement}
    (hs : s.isValid = true) (h : p.bind value = s.triple) {name : QString}
    (hName : name ∈ p.variableNames) : value name ≠ .empty := by
  obtain ⟨hSubject, hPredicate, hObject⟩ := Select.full_of_isValid hs
  rcases value_eq value hName with hEq | hEq | hEq <;> rw [hEq, h]
  · exact hSubject
  · exact hPredicate
  · exact hObject

theorem insertBindings_ground {p : StatementPattern} (h : p.variableNames = []) (s : Statement)
    (b : BindingSet) : p.insertBindings s b = b := by
  obtain ⟨ps, pp, po⟩ := p
  cases ps <;> cases pp <;> cases po <;>
    simp_all [StatementPattern.variableNames, NodePattern.variableNames,
      StatementPattern.insertBindings, NodePattern.isVariable]

end StatementPattern

namespace Rule

/-- Where every variable of the preconditions is bound, no precondition is taken for the one that the
query left out. -/
theorem mergeBindingStatement_eq {r : Rule} {b : BindingSet}
    (h : ∀ name ∈ names r.preconditions, b.value name ≠ .empty) : r.mergeBindingStatement b = b := by
  have hPattern : ∀ p ∈ r.preconditions, r.mergePattern b b p = b := by
    intro p hp
    rw [mergePattern]
    split
    · rfl
    · rename_i hNone
      refine StatementPattern.insertBindings_ground (List.eq_nil_iff_forall_not_mem.mpr ?_) _ _
      intro name hName
      refine hNone (List.any_eq_true.mpr ⟨name, hName, isValid_iff.mpr (h name ?_)⟩)
      exact List.mem_flatMap.mpr ⟨p, hp, hName⟩
  rw [mergeBindingStatement]
  generalize r.preconditions = patterns at hPattern
  induction patterns with
  | nil => rfl
  | cons p patterns ih =>
    rw [List.foldl_cons, hPattern p List.mem_cons_self]
    exact ih fun p' hp' => hPattern p' (List.mem_cons_of_mem _ hp')

/-- The query of a rule that is not optimized. -/
theorem createSparqlQuery_plain (r : Rule) {bindStatement : Bool}
    (h : bindStatement = false ∨ r.bindingStatement.isValid = false) :
    r.createSparqlQuery bindStatement = if r.preconditions = [] then [] else
      "SELECT * WHERE \x7b ".toList ++ (graphPatterns r.preconditions .empty ++ ['}']) := by
  have hPlain : (!bindStatement || !r.bindingStatement.isValid) = true := by
    rcases h with h | h <;> simp [h]
  rw [createSparqlQuery, if_pos hPlain]
  cases hCase : r.preconditions with
  | nil => rfl
  | cons p patterns =>
    have hSome : graphPatterns (p :: patterns) .empty ≠ [] := by simp [graphPatterns]
    rw [if_neg (by simpa using hSome), if_neg (List.cons_ne_nil _ _)]

/-- The rule that is bound to no statement. -/
def unbound (r : Rule) : Rule := r.bindToStatement .empty

@[simp] theorem preconditions_unbound (r : Rule) : r.unbound.preconditions = r.preconditions := rfl

@[simp] theorem effect_unbound (r : Rule) : r.unbound.effect = r.effect := rfl

@[simp] theorem unbound_bindToStatement (r : Rule) (s : Statement) :
    (r.bindToStatement s).unbound = r.unbound := rfl

end Rule

theorem Sparql.Solution.value_ne_empty {patterns : List StatementPattern} {store : Store}
    {value : QString → Node} (h : Solution patterns store value)
    (hValid : ∀ q ∈ store, q.isValid = true) {name : QString} (hName : name ∈ names patterns) :
    value name ≠ .empty := by
  obtain ⟨p, hp, hName⟩ := List.mem_flatMap.mp hName
  obtain ⟨q, hq, hTriple⟩ := h.triple p hp
  exact StatementPattern.value_ne_empty (hValid q hq) hTriple.symm hName

theorem Sparql.Solution.mono {patterns : List StatementPattern} {store later : Store}
    {value : QString → Node} (h : Solution patterns store value)
    (hMono : triples store ⊆ triples later) : Solution patterns later value :=
  ⟨fun p hp => hMono (h.triple p hp), h.unbound⟩

/-! ### Instances -/

/-- The instances of the rules are the values of the variables under which the effect is valid; their
premises are the preconditions. -/
def system (rules : List Rule) : System Statement (Rule × (QString → Node)) where
  instances := {i | i.1 ∈ rules.map Rule.unbound ∧
    (∀ name, name ∉ names i.1.preconditions → i.2 name = .empty) ∧
    (i.1.effect.bind i.2).isValid = true}
  premises i := i.1.preconditions.map (·.bind i.2)
  conclusion i := i.1.effect.bind i.2

theorem system_congr {rules later : List Rule}
    (h : later.map Rule.unbound = rules.map Rule.unbound) : system later = system rules := by
  rw [system, system, h]

/-- A solution of the preconditions of a rule gives an instance of it, if the effect is valid. -/
theorem Sparql.Solution.instance {rules : List Rule} {r : Rule} (hr : r.unbound ∈ rules.map Rule.unbound)
    {store : Store} {value : QString → Node} (h : Solution r.preconditions store value)
    (hValid : (r.effect.bind value).isValid = true) :
    (r.unbound, value) ∈ (system rules).instances ∧
      ∀ p ∈ (system rules).premises (r.unbound, value), p ∈ triples store := by
  refine ⟨⟨hr, h.unbound, hValid⟩, fun p hp => ?_⟩
  obtain ⟨pattern, hPattern, rfl⟩ := List.mem_map.mp hp
  exact h.triple pattern hPattern

/-! ### Queries -/

namespace InferenceModel

variable (select : QString → Store → List BindingSet)

/-- The results of the rule's query are the instances of the rule whose premises are in the store, at
least those that have the bound statement as a premise. -/
structure Finds (m : InferenceModel) (r : Rule) : Prop where
  sound : ∀ b ∈ m.ruleBindings select r, ∃ value, Solution r.preconditions m.parentModel value ∧
    r.bindEffect b = r.effect.bind value ∧
    r.bindPreconditions b = r.preconditions.map (·.bind value)
  complete : ∀ value, Solution r.preconditions m.parentModel value →
    (r.effect.bind value).isValid = true →
    (r.bindingStatement.isValid = true →
      r.bindingStatement.triple ∈ r.preconditions.map (·.bind value)) →
    ∃ b ∈ m.ruleBindings select r, r.bindEffect b = r.effect.bind value

/-- The results of a query that is not optimized are the solutions of the preconditions. -/
theorem ruleBindings_of_query {select} (hSelect : Answers select) {m : InferenceModel} {r : Rule}
    (hValid : ∀ q ∈ m.parentModel, q.isValid = true) (hPlain : ∀ p ∈ r.preconditions, Plain p)
    (hSome : r.preconditions ≠ [])
    (hQuery : m.optimizedQueries = false ∨ r.bindingStatement.isValid = false) :
    (∀ b ∈ m.ruleBindings select r, Solution r.preconditions m.parentModel b.value ∧
      r.mergeBindingStatement b = b) ∧
    ∀ value, Solution r.preconditions m.parentModel value →
      ∃ b ∈ m.ruleBindings select r, b.value = value := by
  have hText := r.createSparqlQuery_plain hQuery
  rw [if_neg hSome] at hText
  have hBindings : m.ruleBindings select r =
      select (r.createSparqlQuery m.optimizedQueries) m.parentModel := by
    rw [ruleBindings, hText]
    rfl
  have hParse : parse (r.createSparqlQuery m.optimizedQueries) = some [r.preconditions] := by
    rw [hText]
    exact parse_patterns hPlain
  rw [hBindings]
  refine ⟨fun b hb => ?_, fun value => hSelect.complete hParse hValid List.mem_cons_self⟩
  obtain ⟨patterns, hPatterns, hSolution⟩ := hSelect.sound hParse hValid hb
  obtain rfl := List.mem_singleton.mp hPatterns
  exact ⟨hSolution, Rule.mergeBindingStatement_eq fun name hName => hSolution.value_ne_empty hValid hName⟩

/-- The bindings of a query that is read as the preconditions. -/
theorem finds_of_query {select} (hSelect : Answers select) {m : InferenceModel} {r : Rule}
    (hValid : ∀ q ∈ m.parentModel, q.isValid = true) (hPlain : ∀ p ∈ r.preconditions, Plain p)
    (hSome : r.preconditions ≠ [] ∨ r.bindingStatement.isValid = true)
    (hQuery : m.optimizedQueries = false ∨ r.bindingStatement.isValid = false) :
    Finds select m r := by
  by_cases hEmpty : r.preconditions = []
  · have hNone : m.ruleBindings select r = [] := by
      rw [ruleBindings, r.createSparqlQuery_plain hQuery, if_pos hEmpty]
      rfl
    refine ⟨by simp [hNone], fun value _ _ hBound => ?_⟩
    have := hBound (hSome.resolve_left (not_not.mpr hEmpty))
    simp [hEmpty] at this
  obtain ⟨hSound, hComplete⟩ := ruleBindings_of_query hSelect hValid hPlain hEmpty hQuery
  constructor
  · intro b hb
    obtain ⟨hSolution, hMerge⟩ := hSound b hb
    refine ⟨b.value, hSolution, ?_, ?_⟩
    · rw [Rule.bindEffect, hMerge]
    · rw [Rule.bindPreconditions, hMerge]
  · intro value hSolution _ _
    obtain ⟨b, hb, rfl⟩ := hComplete value hSolution
    refine ⟨b, hb, ?_⟩
    rw [Rule.bindEffect, (hSound b hb).2]

/-- A rule finds nothing while one of its preconditions matches no statement. -/
theorem ruleBindings_eq_nil {select} (hSelect : Answers select) {m : InferenceModel} {r : Rule}
    (hValid : ∀ q ∈ m.parentModel, q.isValid = true) (hPlain : ∀ p ∈ r.preconditions, Plain p)
    (hQuery : m.optimizedQueries = false) {p : StatementPattern} (hp : p ∈ r.preconditions)
    (hNone : ∀ q ∈ m.parentModel, p.match q = false) : m.ruleBindings select r = [] := by
  rw [List.eq_nil_iff_forall_not_mem]
  intro b hb
  obtain ⟨hSolution, -⟩ := (ruleBindings_of_query hSelect hValid hPlain (List.ne_nil_of_mem hp)
    (.inl hQuery)).1 b hb
  obtain ⟨q, hq, hTriple⟩ := hSolution.triple p hp
  have hMatch := StatementPattern.match_of_bind (hPlain p hp) hTriple.symm
  rw [hNone q hq] at hMatch
  cases hMatch

end InferenceModel

end Qt

end Inference

end Soprano
