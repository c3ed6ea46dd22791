import Soprano.Inference.Sparql

/-! The parent model of the inference model: a set of quads, which compares nodes as terms, and a
`select` that answers the queries of the engine. -/

namespace Soprano

namespace Inference

section Qt

variable [Qt]

namespace Store

/-- The statement is one that the partial statement describes; empty nodes are wildcards. -/
def isMatch (partialStatement s : Statement) : Bool :=
  (partialStatement.subject.isEmpty || s.subject = partialStatement.subject) &&
    (partialStatement.predicate.isEmpty || s.predicate = partialStatement.predicate) &&
    (partialStatement.object.isEmpty || s.object = partialStatement.object) &&
    (partialStatement.context.isEmpty || s.context = partialStatement.context)

/-- An invalid statement is refused. -/
def addStatement (store : Store) (s : Statement) : Store :=
  if s.isValid then store.insert s else store

def removeStatement (store : Store) (s : Statement) : Store := store.filter (· ≠ s)

def listStatements (store : Store) (partialStatement : Statement) : List Statement :=
  store.filter (isMatch partialStatement)

def removeAllStatements (store : Store) (partialStatement : Statement) : Store :=
  store.filter fun s => !isMatch partialStatement s

def removeContext (store : Store) (context : Node) : Store :=
  if context.isValid then removeAllStatements store ⟨.empty, .empty, .empty, context⟩ else store

def containsAnyStatement (store : Store) (partialStatement : Statement) : Bool :=
  store.any (isMatch partialStatement)

theorem mem_addStatement {store : Store} {s q : Statement} :
    q ∈ addStatement store s ↔ q = s ∧ s.isValid = true ∨ q ∈ store := by
  rw [addStatement]
  split <;> simp [*, List.mem_insert_iff]

end Store

open Sparql

theorem isEmpty_eq {n : Node} : n.isEmpty = true ↔ n = .empty := by
  cases n <;> simp [Node.isEmpty, Node.type]

/-- A valid statement without a context is contained if its triple is. -/
theorem containsAnyStatement_iff {store : Store} {t : Statement} (hValid : t.isValid = true)
    (hContext : t.context = .empty) :
    Store.containsAnyStatement store t = true ↔ t ∈ triples store := by
  have hSubject : t.subject.isEmpty = false := by
    cases hNode : t.subject <;> simp_all [Statement.isValid, Node.isEmpty, Node.type,
      Node.isResource, Node.isBlank, Node.isValid]
  have hPredicate : t.predicate.isEmpty = false := by
    cases hNode : t.predicate <;> simp_all [Statement.isValid, Node.isEmpty, Node.type,
      Node.isResource, Node.isValid]
  have hObject : t.object.isEmpty = false := by
    cases hNode : t.object <;> simp_all [Statement.isValid, Node.isEmpty, Node.type, Node.isValid]
  rw [Store.containsAnyStatement, List.any_eq_true]
  constructor
  · rintro ⟨q, hq, hMatch⟩
    refine ⟨q, hq, ?_⟩
    simp [Store.isMatch, hSubject, hPredicate, hObject] at hMatch
    cases t
    cases q
    simp_all [Statement.triple]
  · rintro ⟨q, hq, rfl⟩
    exact ⟨q, hq, by simp [Store.isMatch, Statement.triple, Node.isEmpty, Node.type]⟩

/-! ### An implementation of `executeQuery` -/

namespace Select

/-- The bindings under which the pattern is the node. -/
def extendNode (n : Node) (b : BindingSet) : NodePattern → Option BindingSet
  | .resource m => if n = m then some b else none
  | .ofVariable name =>
    if b.value name = .empty then some (b.insert name n)
    else if b.value name = n then some b else none

/-- The bindings under which the pattern is the statement. -/
def extend (p : StatementPattern) (s : Statement) (b : BindingSet) : Option BindingSet := do
  let b ← extendNode s.subject b p.subjectPattern
  let b ← extendNode s.predicate b p.predicatePattern
  extendNode s.object b p.objectPattern

/-- The solutions of a basic graph pattern that extend the bindings. -/
def solutions (store : Store) : List StatementPattern → BindingSet → List BindingSet
  | [], b => [b]
  | p :: patterns, b =>
    store.flatMap fun q =>
      match extend p q b with
      | some b => solutions store patterns b
      | none => []

def select (query : QString) (store : Store) : List BindingSet :=
  match parse query with
  | some groups => groups.flatMap fun patterns => solutions store patterns .empty
  | none => []

/-- The values agree where the bindings have one. -/
def Below (b : BindingSet) (value : QString → Node) : Prop :=
  ∀ name, b.value name ≠ .empty → value name = b.value name

theorem Below.refl (b : BindingSet) : Below b b.value := fun _ _ => rfl

theorem Below.trans {b c : BindingSet} {value : QString → Node} (h : Below b c.value)
    (h' : Below c value) : Below b value := by
  intro name hName
  rw [h' name (by rw [h name hName]; exact hName), h name hName]

/-- What a step that extends bindings does: it binds the names and changes no other value. -/
structure Extends (b c : BindingSet) (names : List QString) : Prop where
  below : Below b c.value
  bound : ∀ name ∈ names, c.value name ≠ .empty
  unchanged : ∀ name, name ∉ names → c.value name = b.value name

theorem extendNode_sound {n : Node} {b c : BindingSet} {p : NodePattern} (hn : n ≠ .empty)
    (h : extendNode n b p = some c) :
    Extends b c p.variableNames ∧ ∀ value, Below c value → p.bind value = n := by
  cases p with
  | resource m =>
    simp only [extendNode] at h
    split at h
    · rename_i hEq
      cases h
      exact ⟨⟨Below.refl b, nofun, fun _ _ => rfl⟩, fun value _ => hEq.symm⟩
    · cases h
  | ofVariable name =>
    simp only [extendNode] at h
    split at h
    · rename_i hEmpty
      cases h
      refine ⟨⟨fun other hOther => ?_, ?_, fun other hOther => ?_⟩, fun value hBelow => ?_⟩
      · rw [BindingSet.value_insert]
        split
        · rename_i hEq
          exact absurd (hEq ▸ hEmpty) hOther
        · rfl
      · simpa [NodePattern.variableNames] using hn
      · rw [BindingSet.value_insert, if_neg (by simpa [NodePattern.variableNames] using hOther)]
      · have hValue : (b.insert name n).value name = n := by simp
        have := hBelow name (by rw [hValue]; exact hn)
        rw [NodePattern.bind, this, hValue]
    · rename_i hSome
      split at h
      · rename_i hEq
        cases h
        refine ⟨⟨Below.refl b, by simpa [NodePattern.variableNames] using hSome, fun _ _ => rfl⟩,
          fun value hBelow => ?_⟩
        rw [NodePattern.bind, hBelow name hSome, hEq]
      · cases h

theorem extendNode_complete {n : Node} {b : BindingSet} {p : NodePattern} {value : QString → Node}
    (hBelow : Below b value) (h : p.bind value = n) :
    ∃ c, extendNode n b p = some c ∧ Below c value := by
  cases p with
  | resource m =>
    refine ⟨b, ?_, hBelow⟩
    exact if_pos h.symm
  | ofVariable name =>
    by_cases hEmpty : b.value name = .empty
    · refine ⟨b.insert name n, by rw [extendNode, if_pos hEmpty], fun other hOther => ?_⟩
      rw [BindingSet.value_insert] at hOther ⊢
      split
      · rename_i hEq
        rw [hEq]
        exact h
      · rename_i hNe
        rw [if_neg hNe] at hOther
        exact hBelow other hOther
    · have hValue : b.value name = n := by
        rw [← hBelow name hEmpty]
        exact h
      exact ⟨b, by rw [extendNode, if_neg hEmpty, if_pos hValue], hBelow⟩

theorem Extends.trans {b c d : BindingSet} {names names' : List QString} (h : Extends b c names)
    (h' : Extends c d names') : Extends b d (names ++ names') := by
  refine ⟨h.below.trans h'.below, fun name hName => ?_, fun name hName => ?_⟩
  · rcases List.mem_append.mp hName with hName | hName
    · have hBound := h.bound name hName
      rw [h'.below name hBound]
      exact hBound
    · exact h'.bound name hName
  · rw [List.mem_append, not_or] at hName
    rw [h'.unchanged name hName.2, h.unchanged name hName.1]

/-- The nodes of the triple are not empty. -/
def Full (s : Statement) : Prop :=
  s.subject ≠ .empty ∧ s.predicate ≠ .empty ∧ s.object ≠ .empty

theorem full_of_isValid {s : Statement} (h : s.isValid = true) : Full s := by
  refine ⟨?_, ?_, ?_⟩ <;> intro hEmpty <;>
    simp [Statement.isValid, hEmpty, Node.isResource, Node.isBlank, Node.isValid, Node.isEmpty,
      Node.type] at h

theorem extend_sound {p : StatementPattern} {s : Statement} {b c : BindingSet} (hs : Full s)
    (h : extend p s b = some c) :
    Extends b c p.variableNames ∧ ∀ value, Below c value → p.bind value = s.triple := by
  simp only [extend, Option.bind_eq_bind, Option.bind_eq_some_iff] at h
  obtain ⟨b₁, hSubject, b₂, hPredicate, hObject⟩ := h
  obtain ⟨hS, hSubject⟩ := extendNode_sound hs.1 hSubject
  obtain ⟨hP, hPredicate⟩ := extendNode_sound hs.2.1 hPredicate
  obtain ⟨hO, hObject⟩ := extendNode_sound hs.2.2 hObject
  refine ⟨hS.trans (hP.trans hO), fun value hBelow => ?_⟩
  have hBelow₂ := hO.below.trans hBelow
  rw [StatementPattern.bind, hSubject value (hP.below.trans hBelow₂), hPredicate value hBelow₂,
    hObject value hBelow]
  rfl

theorem extend_complete {p : StatementPattern} {s : Statement} {b : BindingSet}
    {value : QString → Node} (hBelow : Below b value) (h : p.bind value = s.triple) :
    ∃ c, extend p s b = some c ∧ Below c value := by
  obtain ⟨b₁, hSubject, hBelow₁⟩ :=
    extendNode_complete hBelow (p := p.subjectPattern) (congrArg Statement.subject h)
  obtain ⟨b₂, hPredicate, hBelow₂⟩ :=
    extendNode_complete hBelow₁ (p := p.predicatePattern) (congrArg Statement.predicate h)
  obtain ⟨b₃, hObject, hBelow₃⟩ :=
    extendNode_complete hBelow₂ (p := p.objectPattern) (congrArg Statement.object h)
  refine ⟨b₃, ?_, hBelow₃⟩
  have hSubject' : extendNode s.subject b p.subjectPattern = some b₁ := hSubject
  have hPredicate' : extendNode s.predicate b₁ p.predicatePattern = some b₂ := hPredicate
  have hObject' : extendNode s.object b₂ p.objectPattern = some b₃ := hObject
  simp [extend, hSubject', hPredicate', hObject']

theorem solutions_sound {store : Store} (hStore : ∀ q ∈ store, Full q)
    {patterns : List StatementPattern} {b c : BindingSet} (h : c ∈ solutions store patterns b) :
    Extends b c (names patterns) ∧ ∀ p ∈ patterns, p.bind c.value ∈ triples store := by
  induction patterns generalizing b with
  | nil =>
    rw [solutions, List.mem_singleton] at h
    subst h
    exact ⟨⟨Below.refl _, fun name hName => absurd hName List.not_mem_nil, fun _ _ => rfl⟩,
      fun p hp => absurd hp List.not_mem_nil⟩
  | cons p patterns ih =>
    rw [solutions, List.mem_flatMap] at h
    obtain ⟨q, hq, hc⟩ := h
    split at hc
    · rename_i b₁ hExtend
      obtain ⟨hFirst, hBind⟩ := extend_sound (hStore q hq) hExtend
      obtain ⟨hRest, hTriples⟩ := ih hc
      refine ⟨hFirst.trans hRest, fun p' hp' => ?_⟩
      rcases List.mem_cons.mp hp' with rfl | hp'
      · exact ⟨q, hq, (hBind c.value hRest.below).symm⟩
      · exact hTriples p' hp'
    · cases hc

theorem solutions_complete {store : Store} {patterns : List StatementPattern} {b : BindingSet}
    {value : QString → Node} (hBelow : Below b value)
    (h : ∀ p ∈ patterns, p.bind value ∈ triples store) :
    ∃ c ∈ solutions store patterns b, Below c value := by
  induction patterns generalizing b with
  | nil => exact ⟨b, by simp [solutions], hBelow⟩
  | cons p patterns ih =>
    obtain ⟨q, hq, hBind⟩ := h p (by simp)
    obtain ⟨b₁, hExtend, hBelow₁⟩ := extend_complete hBelow hBind.symm
    obtain ⟨c, hc, hBelow'⟩ := ih hBelow₁ fun p' hp' => h p' (by simp [hp'])
    refine ⟨c, ?_, hBelow'⟩
    rw [solutions, List.mem_flatMap]
    exact ⟨q, hq, by simp only [hExtend, hc]⟩

/-- The names are distinct and each has a node. -/
structure Tidy (b : BindingSet) : Prop where
  distinct : b.DistinctNames
  value : ∀ name ∈ b.bindingNames, b.value name ≠ .empty

theorem tidy_extendNode {n : Node} {b c : BindingSet} {p : NodePattern} (hn : n ≠ .empty)
    (hb : Tidy b) (h : extendNode n b p = some c) : Tidy c := by
  cases p with
  | resource m =>
    simp only [extendNode, Option.ite_none_right_eq_some, Option.some.injEq] at h
    exact h.2 ▸ hb
  | ofVariable name =>
    simp only [extendNode] at h
    split at h
    · rename_i hEmpty
      cases h
      have hNames : (b.insert name n).bindingNames = b.bindingNames ++ [name] := by
        simp [BindingSet.insert, BindingSet.bindingNames]
      refine ⟨?_, fun other hOther => ?_⟩
      · rw [BindingSet.DistinctNames, hNames, List.nodup_append]
        refine ⟨hb.distinct, List.nodup_singleton name, fun other hOther last hLast hEq => ?_⟩
        obtain rfl := List.mem_singleton.mp hLast
        exact hb.value other hOther (hEq ▸ hEmpty)
      · rw [BindingSet.value_insert]
        split
        · exact hn
        · rename_i hNe
          rw [hNames, List.mem_append, List.mem_singleton] at hOther
          exact hb.value other (hOther.resolve_right hNe)
    · simp only [Option.ite_none_right_eq_some, Option.some.injEq] at h
      exact h.2 ▸ hb

theorem tidy_solutions {store : Store} (hStore : ∀ q ∈ store, Full q)
    {patterns : List StatementPattern} {b c : BindingSet} (hb : Tidy b)
    (h : c ∈ solutions store patterns b) : Tidy c := by
  induction patterns generalizing b with
  | nil =>
    rw [solutions, List.mem_singleton] at h
    exact h ▸ hb
  | cons p patterns ih =>
    rw [solutions, List.mem_flatMap] at h
    obtain ⟨q, hq, hc⟩ := h
    split at hc
    · rename_i b₁ hExtend
      obtain ⟨hSubject, hPredicate, hObject⟩ := hStore q hq
      simp only [extend, Option.bind_eq_bind, Option.bind_eq_some_iff] at hExtend
      obtain ⟨b₂, h₂, b₃, h₃, h₁⟩ := hExtend
      have hTidy₂ := tidy_extendNode hSubject hb h₂
      have hTidy₃ := tidy_extendNode hPredicate hTidy₂ h₃
      exact ih (tidy_extendNode hObject hTidy₃ h₁) hc
    · cases hc

/-- The implementation answers queries as SPARQL defines them. -/
theorem answers_select : Answers select where
  sound {query groups store b} hParse hStore hb := by
    simp only [select, hParse, List.mem_flatMap] at hb
    obtain ⟨patterns, hPatterns, hb⟩ := hb
    obtain ⟨hExtends, hTriples⟩ := solutions_sound (fun q hq => full_of_isValid (hStore q hq)) hb
    exact ⟨patterns, hPatterns, hTriples, fun name hName => hExtends.unchanged name hName⟩
  complete {query groups patterns store value} hParse hStore hPatterns hSolution := by
    have hEmpty : Below .empty value := fun name hName => absurd rfl hName
    obtain ⟨b, hb, hBelow⟩ := solutions_complete hEmpty hSolution.triple
    obtain ⟨hExtends, -⟩ := solutions_sound (fun q hq => full_of_isValid (hStore q hq)) hb
    refine ⟨b, ?_, ?_⟩
    · simp only [select, hParse, List.mem_flatMap]
      exact ⟨patterns, hPatterns, hb⟩
    · funext name
      by_cases hName : name ∈ names patterns
      · exact (hBelow name (hExtends.bound name hName)).symm
      · rw [hExtends.unchanged name hName, hSolution.unbound name hName]
        rfl
  named {query groups store b} hParse hStore hb := by
    simp only [select, hParse, List.mem_flatMap] at hb
    obtain ⟨patterns, hPatterns, hb⟩ := hb
    have hFull := fun q hq => full_of_isValid (hStore q hq)
    have hEmpty : Tidy .empty := ⟨List.nodup_nil, fun name hName => absurd hName List.not_mem_nil⟩
    have hTidy : Tidy b := tidy_solutions hFull hEmpty hb
    refine ⟨hTidy.distinct, fun name hName => ?_⟩
    by_contra hNot
    refine hTidy.value name hName ((solutions_sound hFull hb).1.unchanged name fun hMem => hNot ?_)
    obtain ⟨p, hp, hMem⟩ := List.mem_flatMap.mp hMem
    exact List.mem_flatMap.mpr ⟨p, List.mem_flatten.mpr ⟨patterns, hPatterns, hp⟩, hMem⟩

end Select

end Qt

end Inference

end Soprano
