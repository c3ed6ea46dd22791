import Soprano.Inference.Engine

/-! `addStatement` brings the store to its closure under the rules. -/

namespace Soprano

namespace Inference

open Saturation Sparql Vocabulary

namespace InferenceModel

section Qt

variable [Qt] {select : QString → Store → List BindingSet} {createRandomUri : Nat → QUrl}
  {m m' : InferenceModel}

/-- The model `m'` holds what is derivable in the model `m`, each inferred statement in a random
graph, and beside that only metadata. -/
structure Completes (createRandomUri : Nat → QUrl) (m m' : InferenceModel) : Prop where
  closed : (system m.rules).Closed (triples m'.parentModel)
  mem : ∀ q ∈ m.parentModel, q ∈ m'.parentModel
  derivable : ∀ t, (system m.rules).Derivable (triples m.parentModel) t → t ∈ triples m'.parentModel
  new : ∀ q ∈ m'.parentModel, q ∈ m.parentModel ∨
    q ∈ Metadata createRandomUri m.compressedStatements ∨
    (∃ k, q.context = .ofUri (createRandomUri k)) ∧
      (system m.rules).Derivable (triples m.parentModel) q.triple

theorem Run.completes (hPlain : PlainRules m.rules)
    (hUnmatched : Unmatched createRandomUri m.rules m.compressedStatements)
    (hRun : Run createRandomUri Justified m m')
    (hClosed : (system m.rules).Closed (triples m'.parentModel)) :
    Completes createRandomUri m m' := by
  have hGrown := hRun.derives hPlain hUnmatched
  refine ⟨hClosed, hGrown.mem, fun t ht => ?_, fun q hq => ?_⟩
  · exact ht.mem_of_closed hGrown.triples_subset hClosed
  · rcases hGrown.new q hq with hOld | hMeta | ⟨k, -, -, hContext, hDerives⟩
    · exact .inl hOld
    · exact .inr (.inl hMeta)
    · exact .inr (.inr ⟨⟨k, hContext⟩, hDerives.derivable⟩)

/-- What the engine needs to know of a model whose queries are not optimized. -/
theorem engine_of_plain (hSelect : Answers select) (hUris : ∀ k, (createRandomUri k).isEmpty = false)
    (hValid : ∀ q ∈ m.parentModel, q.isValid = true) (hPlain : PlainRules m.rules)
    (hUnmatched : Unmatched createRandomUri m.rules m.compressedStatements)
    (hQueries : m.optimizedQueries = false) :
    Engine select createRandomUri (triplesOver (nodesOf m.parentModel m.rules)) m where
  uris := hUris
  plain := hPlain
  unmatched := hUnmatched
  finite := finite_triplesOver _
  covers := triples_subset_triplesOver _ _
  closed _ hi hPremises := conclusion_mem_triplesOver hi hPremises
  finds {m' r} hRun hr hSome _ := by
    have hGrown := hRun.derives hPlain hUnmatched
    obtain ⟨r₀, hr₀, hEq⟩ := List.mem_map.mp hr
    have hPreconditions : r₀.preconditions = r.preconditions :=
      congrArg (fun r => r.preconditions) hEq
    refine finds_of_query hSelect (hGrown.valid hValid) ?_ hSome
      (.inl (hGrown.same.optimizedQueries.trans hQueries))
    rw [← hPreconditions]
    exact hPlain r₀ hr₀

@[simp] theorem triples_add {s t : Statement} (hs : s.isValid = true) :
    t ∈ triples (m.add s).parentModel ↔ t = s.triple ∨ t ∈ triples m.parentModel := by
  constructor
  · rintro ⟨q, hq, rfl⟩
    rcases Store.mem_addStatement.mp hq with ⟨rfl, -⟩ | hq
    · exact .inl rfl
    · exact .inr ⟨q, hq, rfl⟩
  · rintro (rfl | ⟨q, hq, rfl⟩)
    · exact ⟨s, Store.mem_addStatement.mpr (.inl ⟨rfl, hs⟩), rfl⟩
    · exact ⟨q, Store.mem_addStatement.mpr (.inr hq), rfl⟩

/-- Adding a statement to a closed model closes it again. -/
theorem Engine.addStatement {U : Set Statement} {s : Statement}
    (h : Engine select createRandomUri U (m.add s)) (hs : s.isValid = true)
    (hClosed : (system m.rules).Closed (triples m.parentModel)) :
    ∃ m', (∃ n, ∀ fuel, n ≤ fuel →
        InferenceModel.addStatement select createRandomUri fuel m s = some (.errorNone, m')) ∧
      Run createRandomUri Justified (m.add s) m' ∧
      (system m.rules).Closed (triples m'.parentModel) := by
  have hMem : s.triple ∈ triples (m.add s).parentModel := (triples_add hs).mpr (.inl rfl)
  obtain ⟨⟨c, m'⟩, hCall, hRun, hClears⟩ := h.inferStatement (missing U (m.add s) + 1) .refl hs hMem
    (Nat.lt_succ_self _)
  refine ⟨m', ⟨missing U (m.add s) + 1, fun fuel hFuel => ?_⟩, hRun, ?_⟩
  · rw [InferenceModel.addStatement, if_pos hs, inferStatement_mono hFuel hCall]
    rfl
  · refine hClears.closed fun i hi => ?_
    have hSubset : triples m.parentModel ⊆ triples (m.add s).parentModel := fun t ht =>
      (triples_add hs).mpr (.inr ht)
    rcases hi.of_subset hSubset with hOpen | ⟨p, hp, hNew, hOld⟩
    · exact absurd hOpen (hClosed i)
    · obtain rfl := ((triples_add hs).mp hNew).resolve_right hOld
      exact hp

end Qt

section Example

/-- Random URIs for the examples: no two of them are equal. -/
def countedUri (k : Nat) : QUrl :=
  ⟨"inference://localhost#".toList ++ List.replicate k 'a', by
    rw [List.all_append]
    refine Bool.and_eq_true_iff.mpr ⟨by decide, List.all_eq_true.mpr fun c hc => ?_⟩
    rw [List.eq_of_mem_replicate hc]
    decide⟩

theorem isEmpty_countedUri (k : Nat) : (countedUri k).isEmpty = false := rfl

def urn (name : String) (h : name.toList.all isUrlChar = true) : QUrl :=
  (QUrl.ofString "urn:" (by decide)).extended name h

theorem legal_b : "b".toList.all isUrlChar = true := by decide

theorem legal_c : "c".toList.all isUrlChar = true := by decide

theorem legal_p : "p".toList.all isUrlChar = true := by decide

theorem legal_q : "q".toList.all isUrlChar = true := by decide

theorem legal_r : "r".toList.all isUrlChar = true := by decide

theorem legal_s : "s".toList.all isUrlChar = true := by decide

local instance closureQt : Qt := asciiQt

/-- A rule that copies the statements of one predicate to another. -/
def copyRule : Rule where
  preconditions := [⟨.ofVariable ['x'], .resource (.ofUri (urn "p" legal_p)), .ofVariable ['y']⟩]
  effect := ⟨.ofVariable ['x'], .resource (.ofUri (urn "q" legal_q)), .ofVariable ['y']⟩
  bindingStatement := .empty

/-- A rule about a literal with a quote. -/
def quoteRule : Rule where
  preconditions := [⟨.ofVariable ['x'], .resource (.ofUri (urn "p" legal_p)),
    .resource (.ofLiteral (.fromString "a\"b".toList XMLSchema.string))⟩]
  effect := ⟨.ofVariable ['x'], .resource (.ofUri (urn "q" legal_q)),
    .resource (.ofUri (urn "r" legal_r))⟩
  bindingStatement := .empty

def quoteStatement : Statement :=
  ⟨.ofUri (urn "s" legal_s), .ofUri (urn "p" legal_p),
    .ofLiteral (.fromString "a\"b".toList XMLSchema.string), .empty⟩

def plainStatement : Statement :=
  ⟨.ofUri (urn "s" legal_s), .ofUri (urn "p" legal_p), .ofUri (urn "o" (by decide)), .empty⟩

def emptyModel (rules : List Rule) : InferenceModel :=
  { parentModel := [], rules := rules, compressedStatements := true, optimizedQueries := false,
    uris := 0 }

/-- Where each rule has a precondition an empty model is closed. -/
theorem closed_emptyModel {rules : List Rule} (h : ∀ r ∈ rules, r.preconditions ≠ []) :
    (system (emptyModel rules).rules).Closed (triples (emptyModel rules).parentModel) := by
  rintro i ⟨hi, hPremises, -⟩
  obtain ⟨r, hr, hEq⟩ := List.mem_map.mp hi.1
  obtain ⟨p, hp⟩ := List.exists_mem_of_ne_nil _ (h r hr)
  obtain ⟨q, hq, -⟩ := hPremises (p.bind i.2) (List.mem_map_of_mem (hEq ▸ hp))
  cases hq

theorem plainRules_copyRule : PlainRules [copyRule] := by
  intro r hr p hp
  obtain rfl := List.mem_singleton.mp hr
  obtain rfl := List.mem_singleton.mp hp
  refine ⟨rfl, trivial, rfl, ?_, ?_⟩
  · exact QString.markersAbove_of_notMem (by decide)
  · exact QString.markersAbove_of_notMem (by decide)

/-- The quote of a literal is not escaped, so that the query of its rule is not read. -/
theorem addStatement_quoteRule (n : Nat) :
    addStatement Select.select countedUri (n + 1) (emptyModel [quoteRule]) quoteStatement =
      some (.errorNone, ((emptyModel [quoteRule]).add quoteStatement).bindRule 0 quoteStatement) := by
  have hQuery : parse (quoteRule.createSparqlQuery false) = none := by decide
  have hBindings : ∀ m : InferenceModel, m.optimizedQueries = false →
      m.ruleBindings Select.select (quoteRule.bindToStatement quoteStatement) = [] := by
    intro m hm
    rw [ruleBindings, hm]
    show (if _ then [] else Select.select (quoteRule.createSparqlQuery false) m.parentModel) = []
    rw [Select.select, hQuery]
    exact ite_self _
  have hMatch : quoteRule.match quoteStatement = true := by decide
  have hValid : quoteStatement.isValid = true := by decide
  have hRule : (((emptyModel [quoteRule]).add quoteStatement).bindRule 0 quoteStatement).rules[0]? =
      some (quoteRule.bindToStatement quoteStatement) := rfl
  have hTurn : inferMatching Select.select countedUri
      (inferStatement Select.select countedUri n true) true quoteStatement
      (0, (emptyModel [quoteRule]).add quoteStatement) 0 =
      some (0, ((emptyModel [quoteRule]).add quoteStatement).bindRule 0 quoteStatement) := by
    have hFirst : ((emptyModel [quoteRule]).add quoteStatement).rules[0]? = some quoteRule := rfl
    simp only [inferMatching, hFirst, hMatch, if_true, inferRule, hRule]
    rw [hBindings _ rfl]
    rfl
  have hCall : inferStatement Select.select countedUri (n + 1) true quoteStatement
      ((emptyModel [quoteRule]).add quoteStatement) =
      some (0, ((emptyModel [quoteRule]).add quoteStatement).bindRule 0 quoteStatement) := by
    show List.foldlM _ (0, _) [0] = _
    rw [List.foldlM_cons, hTurn]
    rfl
  rw [addStatement, if_pos hValid, hCall]
  rfl

end Example

end InferenceModel

end Inference

end Soprano
