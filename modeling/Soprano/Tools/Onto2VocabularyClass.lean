import Mathlib.Data.List.Nodup
import Soprano.Graph

/-! The names in the header and the source that `onto2vocabularyclass` generates. -/

namespace Soprano

namespace Onto2VocabularyClass

open Vocabulary

/-- What is read of a `QUrl`, decoded, and the bytes of a C++ string literal with a text between its quotes, if
that is one literal. -/
class Platform where
  /-- `QUrl::fragment` -/
  fragment : QUrl → QString
  /-- `QUrl::path` -/
  path : QUrl → QString
  literal : QString → Option QByteArray
  literal_plain : ∀ s : QString, s.all isUrlChar = true → '?' ∉ s → literal s = some s.toLatin1

def normalizeName (name : QString) : QString :=
  (name.filter (· ≠ '-')).map fun c => if c = '.' then '_' else c

def keywords : List QString := ["class".toList, "long".toList]

/-- `toUpper` meets the first letter of a keyword only. -/
def disambiguateKeyword [Qt] (name className : QString) : QString :=
  if keywords.contains name then Qt.toLower className ++ (name.take 1).map Char.toUpper ++ name.drop 1 else name

/-- `section( "/", -1 )` -/
def lastSection (s : QString) : QString := (s.reverse.takeWhile (· ≠ '/')).reverse

/-- `section( "/", 0, -2 )` -/
def withoutLastSection (s : QString) : QString := ((s.reverse.dropWhile (· ≠ '/')).drop 1).reverse

/-- The code units of a text, which `operator<` compares. -/
def utf16 (s : QString) : List Nat :=
  s.flatMap fun c =>
    if c.toNat < 0x10000 then [c.toNat]
    else [0xd800 + (c.toNat - 0x10000) / 0x400, 0xdc00 + (c.toNat - 0x10000) % 0x400]

/-- `split( "::" )` -/
def splitScope : QString → List QString
  | ':' :: ':' :: rest => [] :: splitScope rest
  | c :: rest => (splitScope rest).modifyHead (c :: ·)
  | [] => [[]]

def joinScope (scope : List QString) : QString := "::".toList.intercalate scope

theorem splitScope_ne_nil (s : QString) : splitScope s ≠ [] := by
  fun_induction splitScope s with
  | case1 rest ih => exact List.cons_ne_nil _ _
  | case2 c rest h ih =>
    obtain ⟨first, more, hSplit⟩ := List.exists_cons_of_ne_nil ih
    simp [hSplit]
  | case3 => exact List.cons_ne_nil _ _

theorem joinScope_cons {first : QString} {scope : List QString} (h : scope ≠ []) :
    joinScope (first :: scope) = first ++ "::".toList ++ joinScope scope := by
  obtain ⟨second, more, rfl⟩ := List.exists_cons_of_ne_nil h
  simp [joinScope, List.intercalate, List.intersperse]

theorem joinScope_splitScope (s : QString) : joinScope (splitScope s) = s := by
  fun_induction splitScope s with
  | case1 rest ih => rw [joinScope_cons (splitScope_ne_nil rest), ih]; rfl
  | case2 c rest h ih =>
    obtain ⟨first, more, hSplit⟩ := List.exists_cons_of_ne_nil (splitScope_ne_nil rest)
    rw [hSplit] at ih ⊢
    cases more with
    | nil => simpa [joinScope, List.intercalate] using ih
    | cons second more =>
      rw [joinScope_cons (List.cons_ne_nil _ _)] at ih
      rw [List.modifyHead_cons, joinScope_cons (List.cons_ne_nil _ _), ← ih]
      rfl
  | case3 => rfl

theorem joinScope_concat {scope : List QString} (h : scope ≠ []) (last : QString) :
    joinScope (scope ++ [last]) = joinScope scope ++ "::".toList ++ last := by
  induction scope with
  | nil => exact absurd rfl h
  | cons first scope ih =>
    cases scope with
    | nil => simp [joinScope, List.intercalate, List.intersperse]
    | cons second more =>
      rw [List.cons_append, joinScope_cons (by simp), ih (List.cons_ne_nil _ _),
        joinScope_cons (List.cons_ne_nil _ _)]
      simp only [List.append_assoc]

section Qt

variable [Qt] [QtHash] [Platform]

/-- An item of `normalizedResources`, with the resource that it was made for. -/
structure Entry where
  resource : QUrl
  name : QString
  comment : QString

/-- The key of an item. -/
def Entry.uri (e : Entry) : QString := Qt.urlToString e.resource

/-- What the loop over the resources has made: `normalizedResources`, and `done`. -/
structure Naming where
  entries : List Entry
  done : List QString

/-- The name that the code takes for a resource. -/
def nameOf (resource : Node) : QString :=
  let uri := Qt.urlToString resource.uri
  let name := Platform.fragment resource.uri
  if name.isEmpty && !List.contains uri '#' then lastSection (Platform.path resource.uri) else name

def Naming.add (n : Naming) (resource : Node) : Naming :=
  if n.entries.any (·.uri == Qt.urlToString resource.uri) then n
  else
    let name := nameOf resource
    if !name.isEmpty && !n.done.contains name then ⟨n.entries ++ [⟨resource.uri, name, []⟩], n.done ++ [name]⟩
    else n

/-- A turn of the loop over the comments. -/
def addComment (g : Graph) (entries : List Entry) (resource : Node) : List Entry :=
  match (g.statements.toList.filter
    (·.matches ⟨resource, .ofUri RDFS.comment, .empty, .empty⟩)).head? with
  | some s =>
    entries.map fun e =>
      if e.uri = resource.toString then { e with comment := s.object.toLiteral.toString } else e
  | none => entries

/-- `normalizedResources`, in the order of a `QMap`. -/
def normalizedResources (g : Graph) (allResources : List Node) : List Entry :=
  (allResources.foldl (addComment g) (allResources.foldl Naming.add ⟨[], []⟩).entries).mergeSort
    fun a b => utf16 a.uri ≤ utf16 b.uri

/-- The resources with a type, other than in the metadata of a graph. -/
def extractRelevantResources (g : Graph) : QSet Node Node.same :=
  ((g.statements.toList.filter (·.matches ⟨.empty, .ofUri RDF.type, .empty, .empty⟩)).filter fun s =>
    !s.context.isValid ||
      !g.containsStatement ⟨s.context, .ofUri RDF.type, .ofUri NRL.GraphMetadata, .empty⟩).foldl
    (fun resources s => resources.insert s.subject) .empty

def nrlGraph (g : Graph) : QUrl :=
  ((g.statements.toList.filter
    (·.matches ⟨.empty, .ofUri RDF.type, .ofUri NRL.Ontology, .empty⟩)).head?.map (·.subject.uri)).getD QUrl.empty

/-- `ontoNamespace`, given the first key of `normalizedResources`. -/
def ontoNamespace (key : QString) : QString :=
  let namespaceUri := Qt.urlOfString key
  if '#' ∈ namespaceUri.encoded then
    Qt.urlToString ⟨namespaceUri.encoded.takeWhile (· ≠ '#'),
      List.all_eq_true.mpr fun _ h => namespaceUri.isUrlChar_of_mem ((List.takeWhile_sublist _).mem h)⟩ ++ ['#']
  else withoutLastSection (Qt.urlToString namespaceUri) ++ ['/']

/-! ### The generated files -/

/-- The comments in the header, which also lays out their words, and the functions that it has in its
namespaces. -/
structure Header where
  comments : List QString
  scope : List QString
  functions : List QString

/-- A member of the private class, with the text between the quotes of its initialiser. -/
abbrev Member : Type := QString × QString

/-- A function by its qualified name, with the member that it returns. -/
abbrev Definition : Type := QString × QString

structure Source where
  initialisers : List Member
  members : List QString
  definitions : List Definition

/-- The ontology that the functions are made for. -/
structure Ontology where
  className : QString
  namespaceName : QString
  nrlGraph : QUrl
  entries : List Entry

namespace Ontology

variable (o : Ontology)

/-- `className.toLower()` -/
def lower : QString := Qt.toLower o.className

def nrlFunction : QString := "nrlOntologyGraph".toList

/-- What is written for the NRL graph, if there is one. -/
def ifNrlGraph {α : Type} (item : α) : List α := if !o.nrlGraph.isEmpty then [item] else []

def ontoNamespace : QString :=
  match o.entries with
  | first :: _ => Onto2VocabularyClass.ontoNamespace first.uri
  | [] => []

/-- What `writeComment` is given for an item. -/
def comment (e : Entry) : QString :=
  if e.comment.isEmpty then e.uri else e.uri ++ ['\n', '\n'] ++ e.comment

def header : Header where
  comments := [o.ontoNamespace] ++ o.ifNrlGraph (Qt.urlToString o.nrlGraph) ++ o.entries.map comment
  scope := (if o.namespaceName.isEmpty then [] else splitScope o.namespaceName) ++ [o.className]
  functions := [o.lower ++ "Namespace".toList] ++ o.ifNrlGraph nrlFunction ++
    o.entries.map fun e => disambiguateKeyword (normalizeName e.name) o.className

/-- The name of a function in the source, as it is written there. -/
def qualified (function : QString) : QString :=
  (if o.namespaceName.isEmpty then [] else o.namespaceName ++ "::".toList) ++ o.className ++ "::".toList ++ function

def memberName (e : Entry) : QString := o.lower ++ ['_'] ++ normalizeName e.name

def source : Source where
  initialisers := [(o.lower ++ "_namespace".toList, o.ontoNamespace)] ++
    o.ifNrlGraph (nrlFunction, Qt.urlToString o.nrlGraph) ++ o.entries.map fun e => (o.memberName e, e.uri)
  members := [o.lower ++ "_namespace".toList] ++ o.ifNrlGraph nrlFunction ++ o.entries.map o.memberName
  definitions := [(o.qualified (o.lower ++ "Namespace".toList), o.lower ++ "_namespace".toList)] ++
    o.ifNrlGraph (o.qualified nrlFunction, nrlFunction) ++
    o.entries.map fun e =>
      (o.qualified (disambiguateKeyword (normalizeName e.name) o.className), o.memberName e)

end Ontology

/-- What `main` generates for a graph, if it finds something to export. `order` is the order in which a
`QSet` becomes a list. -/
def generate (order : QSet Node Node.same → List Node) (className namespaceName : QString) (g : Graph) :
    Option Ontology :=
  let entries := normalizedResources g (order (extractRelevantResources g))
  if entries.isEmpty then none else some ⟨className, namespaceName, nrlGraph g, entries⟩

/-! ### The generated class -/

/-- The end of a comment. -/
def closes (text : QString) : Bool := text.tails.any ("*/".toList.isPrefixOf ·)

/-- The functions that the header declares. Behind a comment that its own text closes stands no declaration. -/
def Header.declared (h : Header) : Option (List QString) :=
  if h.comments.any closes then none else some (h.functions.map fun function => joinScope (h.scope ++ [function]))

/-- What a function returns: the private class is made once, and nobody else has it. -/
def Source.returns (s : Source) (function : QString) : Option QUrl := do
  let member ← s.definitions.lookup function
  let text ← s.initialisers.lookup member
  let bytes ← Platform.literal text
  pure (QUrl.fromEncoded bytes .strictMode)

namespace Ontology

variable (o : Ontology)

/-- The name of the function for an item. -/
def function (e : Entry) : QString := o.qualified (disambiguateKeyword (normalizeName e.name) o.className)

structure Consistent : Prop where
  declared : o.header.declared = some (o.source.definitions.map Prod.fst)
  functions : (o.source.definitions.map Prod.fst).Nodup
  members : o.source.members.Nodup
  returns : ∀ e ∈ o.entries, o.source.returns (o.function e) = some e.resource
  returnsGraph : o.nrlGraph.isEmpty = false → o.source.returns (o.qualified nrlFunction) = some o.nrlGraph

/-- The text of a URL, in a literal, is the encoded form of that URL for `fromEncoded`. -/
def Legible (u : QUrl) : Prop :=
  (Platform.literal (Qt.urlToString u)).map (QUrl.fromEncoded · .strictMode) = some u

/-- No two exported names become one in `normalizeName`, and none becomes another function's or member's name,
no text ends the comment that it stands in, and all URLs can be read back. -/
structure Clear : Prop where
  apart : ∀ e ∈ o.entries, ∀ e' ∈ o.entries, normalizeName e.name = normalizeName e'.name → e.name = e'.name
  notNamespace : ∀ e ∈ o.entries,
    normalizeName e.name ≠ "namespace".toList ∧ normalizeName e.name ≠ o.lower ++ "Namespace".toList
  notGraph : o.nrlGraph.isEmpty = false → ∀ e ∈ o.entries, normalizeName e.name ≠ nrlFunction
  notKeyword : ∀ e ∈ o.entries, normalizeName e.name ∈ keywords → ∀ e' ∈ o.entries,
    normalizeName e'.name ≠ disambiguateKeyword (normalizeName e.name) o.className
  comments : ∀ text ∈ o.header.comments, closes text = false
  legible : ∀ e ∈ o.entries, Legible e.resource
  legibleGraph : o.nrlGraph.isEmpty = false → Legible o.nrlGraph

end Ontology

/-! ### Keywords -/

omit [Qt] [QtHash] [Platform] in
/-- A text with another last letter does not end in `b`. -/
theorem append_ne_of_getLast? {a b other : QString} {c : Char} (hb : b.getLast? = some c)
    (h : other.getLast? ≠ some c) : a ++ b ≠ other := by
  rintro rfl
  exact h (by rw [List.getLast?_append, hb]; rfl)

omit [Qt] [QtHash] [Platform] in
theorem ne_keyword_of_getLast? {name : QString} (h : name.getLast? ≠ some 's' ∧ name.getLast? ≠ some 'g') :
    name ∉ keywords := by
  intro hMem
  simp only [keywords, List.mem_cons, List.not_mem_nil, or_false] at hMem
  obtain rfl | rfl := hMem
  · exact h.1 rfl
  · exact h.2 rfl

section Names

omit [QtHash] [Platform]

theorem disambiguateKeyword_of_notMem {name className : QString} (h : name ∉ keywords) :
    disambiguateKeyword name className = name := by
  rw [disambiguateKeyword, if_neg (by simpa using h)]

theorem disambiguateKeyword_of_mem {name className : QString} (h : name ∈ keywords) :
    disambiguateKeyword name className =
      Qt.toLower className ++ ((name.take 1).map Char.toUpper ++ name.drop 1) := by
  rw [disambiguateKeyword, if_pos (by simpa using h), List.append_assoc]

omit [Qt] in
/-- The keywords with an initial capital. -/
theorem capital_of_mem {name : QString} (h : name ∈ keywords) :
    (name.take 1).map Char.toUpper ++ name.drop 1 = "Class".toList ∧ name = "class".toList ∨
      (name.take 1).map Char.toUpper ++ name.drop 1 = "Long".toList ∧ name = "long".toList := by
  simp only [keywords, List.mem_cons, List.not_mem_nil, or_false] at h
  obtain rfl | rfl := h
  · exact .inl ⟨rfl, rfl⟩
  · exact .inr ⟨rfl, rfl⟩

theorem disambiguateKeyword_ne {name className other : QString} (h : name ∈ keywords)
    (hOther : other.getLast? ≠ some 's' ∧ other.getLast? ≠ some 'g') : disambiguateKeyword name className ≠ other := by
  rw [disambiguateKeyword_of_mem h]
  rintro rfl
  obtain ⟨hCapital, -⟩ | ⟨hCapital, -⟩ := capital_of_mem h
  · rw [hCapital] at hOther
    simp at hOther
  · rw [hCapital] at hOther
    simp at hOther

theorem disambiguateKeyword_notMem (name className : QString) : disambiguateKeyword name className ∉ keywords := by
  by_cases h : name ∈ keywords
  · rw [disambiguateKeyword_of_mem h]
    obtain ⟨hCapital, -⟩ | ⟨hCapital, -⟩ := capital_of_mem h
    · intro hMem
      have hIn : 'C' ∈ Qt.toLower className ++ "Class".toList := by simp
      rw [hCapital] at hMem
      generalize Qt.toLower className ++ "Class".toList = text at hIn hMem
      simp only [keywords, List.mem_cons, List.not_mem_nil, or_false] at hMem
      obtain rfl | rfl := hMem <;> exact absurd hIn (by decide)
    · intro hMem
      have hIn : 'L' ∈ Qt.toLower className ++ "Long".toList := by simp
      rw [hCapital] at hMem
      generalize Qt.toLower className ++ "Long".toList = text at hIn hMem
      simp only [keywords, List.mem_cons, List.not_mem_nil, or_false] at hMem
      obtain rfl | rfl := hMem <;> exact absurd hIn (by decide)
  · rwa [disambiguateKeyword_of_notMem h]

theorem disambiguateKeyword_inj {a b className : QString}
    (h : disambiguateKeyword a className = disambiguateKeyword b className) :
    a = b ∨ a ∈ keywords ∧ b = disambiguateKeyword a className ∨
      b ∈ keywords ∧ a = disambiguateKeyword b className := by
  by_cases ha : a ∈ keywords
  · by_cases hb : b ∈ keywords
    · rw [disambiguateKeyword_of_mem ha, disambiguateKeyword_of_mem hb, List.append_cancel_left_eq] at h
      obtain ⟨hA, rfl⟩ | ⟨hA, rfl⟩ := capital_of_mem ha
      · obtain ⟨-, rfl⟩ | ⟨hB, -⟩ := capital_of_mem hb
        · exact .inl rfl
        · exact absurd (hA.symm.trans (h.trans hB)) (by decide)
      · obtain ⟨hB, -⟩ | ⟨-, rfl⟩ := capital_of_mem hb
        · exact absurd (hA.symm.trans (h.trans hB)) (by decide)
        · exact .inl rfl
    · rw [disambiguateKeyword_of_notMem hb] at h
      exact .inr (.inl ⟨ha, h.symm⟩)
  · rw [disambiguateKeyword_of_notMem ha] at h
    by_cases hb : b ∈ keywords
    · exact .inr (.inr ⟨hb, h⟩)
    · exact .inl (h.trans (disambiguateKeyword_of_notMem hb))

/-! ### The names of an ontology -/

omit [Qt] [QtHash] [Platform] in
theorem lookup_of_nodup {keyed : List (QString × QString)} (h : (keyed.map Prod.fst).Nodup)
    {key value : QString} (hMem : (key, value) ∈ keyed) : keyed.lookup key = some value := by
  induction keyed with
  | nil => cases hMem
  | cons first rest ih =>
    obtain ⟨k, v⟩ := first
    obtain ⟨hNot, hRest⟩ := List.nodup_cons.mp h
    rcases List.mem_cons.mp hMem with hFirst | hLater
    · obtain ⟨rfl, rfl⟩ := Prod.mk.inj hFirst
      simp
    · have hNe : key ≠ k := by
        rintro rfl
        exact hNot (List.mem_map.mpr ⟨_, hLater, rfl⟩)
      rw [List.lookup_cons, beq_false_of_ne hNe]
      exact ih hRest hLater

namespace Ontology

variable {o : Ontology}

omit [Qt] [QtHash] [Platform] in
theorem mem_ifNrlGraph {α : Type} {item x : α} :
    x ∈ o.ifNrlGraph item ↔ o.nrlGraph.isEmpty = false ∧ x = item := by
  unfold ifNrlGraph
  cases o.nrlGraph.isEmpty <;> simp

omit [Qt] [QtHash] [Platform] in
theorem map_ifNrlGraph {α β : Type} (f : α → β) (item : α) :
    (o.ifNrlGraph item).map f = o.ifNrlGraph (f item) := by
  unfold ifNrlGraph
  cases o.nrlGraph.isEmpty <;> rfl

omit [Qt] [QtHash] [Platform] in
theorem nodup_ifNrlGraph {α : Type} (item : α) : (o.ifNrlGraph item).Nodup := by
  unfold ifNrlGraph
  cases o.nrlGraph.isEmpty <;> simp

omit [Qt] [QtHash] [Platform] in
/-- The names of the namespace, of the graph and of the items are distinct. -/
theorem nodup_names_iff {first graph : QString} {f : Entry → QString} (h : first ≠ graph) :
    ([first] ++ o.ifNrlGraph graph ++ o.entries.map f).Nodup ↔
      (o.entries.map f).Nodup ∧ (∀ e ∈ o.entries, f e ≠ first) ∧
        (o.nrlGraph.isEmpty = false → ∀ e ∈ o.entries, f e ≠ graph) := by
  rw [List.append_assoc, List.nodup_append, List.nodup_append]
  simp only [List.nodup_singleton, nodup_ifNrlGraph, true_and, List.mem_append, List.mem_singleton, List.mem_map,
    mem_ifNrlGraph, ne_eq]
  constructor
  · rintro ⟨⟨hEntries, hGraph⟩, hFirst⟩
    exact ⟨hEntries, fun e he hEq => hFirst first rfl _ (.inr ⟨e, he, rfl⟩) hEq.symm,
      fun hNrl e he hEq => hGraph graph ⟨hNrl, rfl⟩ _ ⟨e, he, rfl⟩ hEq.symm⟩
  · rintro ⟨hEntries, hFirst, hGraph⟩
    refine ⟨⟨hEntries, ?_⟩, ?_⟩
    · rintro _ ⟨hNrl, rfl⟩ _ ⟨e, he, rfl⟩ hEq
      exact hGraph hNrl e he hEq.symm
    · rintro _ rfl _ (⟨-, rfl⟩ | ⟨e, he, rfl⟩) hEq
      · exact h hEq
      · exact hFirst e he hEq.symm

omit [Qt] [QtHash] [Platform] in
theorem qualified_inj {a b : QString} : o.qualified a = o.qualified b ↔ a = b := by
  simp [qualified]

omit [QtHash] [Platform] in
/-- The header and the source mean one function by a name. -/
theorem joinScope_scope (f : QString) : joinScope (o.header.scope ++ [f]) = o.qualified f := by
  rw [joinScope_concat (by simp [header])]
  unfold header qualified
  by_cases h : o.namespaceName.isEmpty = true
  · simp [h, joinScope, List.intercalate]
  · simp only [h, Bool.false_eq_true, if_false, joinScope_concat (splitScope_ne_nil _), joinScope_splitScope,
      List.append_assoc]

omit [QtHash] [Platform] in
theorem map_fst_definitions : o.source.definitions.map Prod.fst =
    (([o.lower ++ "Namespace".toList] ++ o.ifNrlGraph nrlFunction ++
      o.entries.map fun e => disambiguateKeyword (normalizeName e.name) o.className).map o.qualified) := by
  simp only [source, List.map_append, List.map_map, map_ifNrlGraph, List.map_cons, List.map_nil]
  rfl

omit [QtHash] [Platform] in
theorem map_fst_initialisers : o.source.initialisers.map Prod.fst = o.source.members := by
  simp only [source, List.map_append, List.map_map, map_ifNrlGraph, List.map_cons, List.map_nil]
  rfl

theorem declared_iff : o.header.declared = some (o.source.definitions.map Prod.fst) ↔
    ∀ text ∈ o.header.comments, closes text = false := by
  have hNames : (o.header.functions.map fun function => joinScope (o.header.scope ++ [function])) =
      o.source.definitions.map Prod.fst := by
    simp only [joinScope_scope, map_fst_definitions]
    rfl
  unfold Header.declared
  rw [hNames]
  cases h : o.header.comments.any closes with
  | true => simpa using h
  | false => simpa using h

omit [Qt] in
theorem nodup_map_of {α β γ : Type} {l : List α} {f : α → β} {g : α → γ} (h : (l.map g).Nodup)
    (hf : ∀ a ∈ l, ∀ b ∈ l, f a = f b → g a = g b) : (l.map f).Nodup := by
  rw [List.Nodup, List.pairwise_map] at h ⊢
  exact h.imp_of_mem fun ha hb hNe hEq => hNe (hf _ ha _ hb hEq)

/-- What decides about the names of the functions and of the members. -/
theorem names_iff (hNames : (o.entries.map Entry.name).Nodup) :
    (o.source.definitions.map Prod.fst).Nodup ∧ o.source.members.Nodup ↔
      (∀ e ∈ o.entries, ∀ e' ∈ o.entries, normalizeName e.name = normalizeName e'.name → e.name = e'.name) ∧
      (∀ e ∈ o.entries,
        normalizeName e.name ≠ "namespace".toList ∧ normalizeName e.name ≠ o.lower ++ "Namespace".toList) ∧
      (o.nrlGraph.isEmpty = false → ∀ e ∈ o.entries, normalizeName e.name ≠ nrlFunction) ∧
      ∀ e ∈ o.entries, normalizeName e.name ∈ keywords → ∀ e' ∈ o.entries,
        normalizeName e'.name ≠ disambiguateKeyword (normalizeName e.name) o.className := by
  have hLast : nrlFunction.getLast? = some 'h' := rfl
  have hNamespace : o.lower ++ "Namespace".toList ≠ nrlFunction :=
    append_ne_of_getLast? (c := 'e') rfl (by rw [hLast]; decide)
  have hMember : o.lower ++ "_namespace".toList ≠ nrlFunction :=
    append_ne_of_getLast? (c := 'e') rfl (by rw [hLast]; decide)
  have hCancel : ∀ e e', o.memberName e = o.memberName e' ↔ normalizeName e.name = normalizeName e'.name := by
    intro e e'
    simp [memberName]
  rw [map_fst_definitions, List.nodup_map_iff (fun _ _ => qualified_inj.mp), nodup_names_iff hNamespace,
    show o.source.members = [o.lower ++ "_namespace".toList] ++ o.ifNrlGraph nrlFunction ++
      o.entries.map o.memberName from rfl, nodup_names_iff hMember]
  constructor
  · rintro ⟨⟨hFunctions, hFirst, hGraph⟩, hMembers, hFirstMember, -⟩
    refine ⟨fun e he e' he' hEq => ?_, fun e he => ⟨fun hEq => ?_, fun hEq => ?_⟩, fun hNrl e he hEq => ?_,
      fun e he hKeyword e' he' hEq => ?_⟩
    · rw [List.inj_on_of_nodup_map hMembers he he' ((hCancel e e').mpr hEq)]
    · exact hFirstMember e he (by simp [memberName, hEq])
    · refine hFirst e he ?_
      rw [hEq]
      exact disambiguateKeyword_of_notMem (ne_keyword_of_getLast? (by simp))
    · refine hGraph hNrl e he ?_
      rw [hEq]
      exact disambiguateKeyword_of_notMem (by decide)
    · have hNot : normalizeName e'.name ∉ keywords := hEq ▸ disambiguateKeyword_notMem _ _
      have hSame := List.inj_on_of_nodup_map hFunctions he' he
        (by rw [disambiguateKeyword_of_notMem hNot, hEq])
      exact hNot (hSame ▸ hKeyword)
  · rintro ⟨hApart, hReserved, hGraph, hKeyword⟩
    have hInjective : ∀ e ∈ o.entries, ∀ e' ∈ o.entries,
        disambiguateKeyword (normalizeName e.name) o.className =
          disambiguateKeyword (normalizeName e'.name) o.className → e.name = e'.name := by
      intro e he e' he' hEq
      refine hApart e he e' he' ?_
      rcases disambiguateKeyword_inj hEq with hEq | ⟨hMem, hEq⟩ | ⟨hMem, hEq⟩
      · exact hEq
      · exact absurd hEq (hKeyword e he hMem e' he')
      · exact absurd hEq (hKeyword e' he' hMem e he)
    refine ⟨⟨nodup_map_of hNames hInjective, fun e he hEq => ?_, fun hNrl e he hEq => ?_⟩,
      nodup_map_of hNames fun e he e' he' hEq => hApart e he e' he' ((hCancel e e').mp hEq),
      fun e he hEq => ?_, fun _ e _ hEq => ?_⟩
    · by_cases hMem : normalizeName e.name ∈ keywords
      · exact disambiguateKeyword_ne hMem (by simp) hEq
      · exact (hReserved e he).2 (disambiguateKeyword_of_notMem hMem ▸ hEq)
    · by_cases hMem : normalizeName e.name ∈ keywords
      · exact disambiguateKeyword_ne hMem (by rw [hLast]; decide) hEq
      · exact hGraph hNrl e he (disambiguateKeyword_of_notMem hMem ▸ hEq)
    · exact (hReserved e he).1 (by simpa [memberName] using hEq)
    · have hIn : '_' ∈ o.memberName e := by simp [memberName]
      exact absurd (hEq ▸ hIn) (by decide)

end Ontology

end Names

namespace Ontology

variable {o : Ontology}

omit [QtHash] in
/-- An item's function returns what can be read of the item's text. -/
theorem returns_eq (hFunctions : (o.source.definitions.map Prod.fst).Nodup) (hMembers : o.source.members.Nodup)
    {function member text : QString} (hFunction : (function, member) ∈ o.source.definitions)
    (hMember : (member, text) ∈ o.source.initialisers) :
    o.source.returns function = (Platform.literal text).map (QUrl.fromEncoded · .strictMode) := by
  rw [← map_fst_initialisers] at hMembers
  rw [Source.returns, lookup_of_nodup hFunctions hFunction, Option.bind_eq_bind, Option.bind_some,
    lookup_of_nodup hMembers hMember]
  show (Platform.literal text).bind _ = _
  generalize Platform.literal text = bytes
  cases bytes <;> rfl

omit [QtHash] in
theorem returns_entry (hFunctions : (o.source.definitions.map Prod.fst).Nodup) (hMembers : o.source.members.Nodup)
    {e : Entry} (he : e ∈ o.entries) : o.source.returns (o.function e) = some e.resource ↔ Legible e.resource := by
  have hFunction : (o.function e, o.memberName e) ∈ o.source.definitions :=
    List.mem_append_right _ (List.mem_map.mpr ⟨e, he, rfl⟩)
  have hMember : (o.memberName e, e.uri) ∈ o.source.initialisers :=
    List.mem_append_right _ (List.mem_map.mpr ⟨e, he, rfl⟩)
  rw [returns_eq hFunctions hMembers hFunction hMember]
  rfl

omit [QtHash] in
theorem returns_graph (hFunctions : (o.source.definitions.map Prod.fst).Nodup) (hMembers : o.source.members.Nodup)
    (hNrl : o.nrlGraph.isEmpty = false) :
    o.source.returns (o.qualified nrlFunction) = some o.nrlGraph ↔ Legible o.nrlGraph := by
  have hFunction : (o.qualified nrlFunction, nrlFunction) ∈ o.source.definitions :=
    List.mem_append_left _ (List.mem_append_right _ (mem_ifNrlGraph.mpr ⟨hNrl, rfl⟩))
  have hMember : (nrlFunction, Qt.urlToString o.nrlGraph) ∈ o.source.initialisers :=
    List.mem_append_left _ (List.mem_append_right _ (mem_ifNrlGraph.mpr ⟨hNrl, rfl⟩))
  rw [returns_eq hFunctions hMembers hFunction hMember]
  rfl

omit [QtHash] in
/-- What has neither percent encodings nor question marks is read back. -/
theorem legible_plain {u : QUrl} (hPercent : '%' ∉ u.encoded) (hMark : '?' ∉ u.encoded) : Legible u := by
  rw [Legible, Qt.urlToString_plain u hPercent, Platform.literal_plain u.encoded u.legal hMark]
  exact congrArg some (QUrl.fromEncoded_toEncoded u .strictMode)

omit [QtHash] in
theorem Consistent.iff_clear (hNames : (o.entries.map Entry.name).Nodup) : o.Consistent ↔ o.Clear := by
  constructor
  · intro h
    obtain ⟨hApart, hReserved, hGraph, hKeyword⟩ := (names_iff hNames).mp ⟨h.functions, h.members⟩
    exact ⟨hApart, hReserved, hGraph, hKeyword, declared_iff.mp h.declared,
      fun e he => (returns_entry h.functions h.members he).mp (h.returns e he),
      fun hNrl => (returns_graph h.functions h.members hNrl).mp (h.returnsGraph hNrl)⟩
  · intro h
    obtain ⟨hFunctions, hMembers⟩ := (names_iff hNames).mpr ⟨h.apart, h.notNamespace, h.notGraph, h.notKeyword⟩
    exact ⟨declared_iff.mpr h.comments, hFunctions, hMembers,
      fun e he => (returns_entry hFunctions hMembers he).mpr (h.legible e he),
      fun hNrl => (returns_graph hFunctions hMembers hNrl).mpr (h.legibleGraph hNrl)⟩

end Ontology

/-! ### The exported names -/

/-- `done` has the names of the items, each once. -/
structure Naming.Sound (n : Naming) : Prop where
  names : n.entries.map Entry.name = n.done
  nodup : n.done.Nodup

omit [QtHash] in
theorem Naming.Sound.add {n : Naming} (h : n.Sound) (resource : Node) : (n.add resource).Sound := by
  unfold Naming.add
  split
  · exact h
  · dsimp only
    split
    · rename_i hNew
      have hNot : nameOf resource ∉ n.done := by simpa using (Bool.and_eq_true_iff.mp hNew).2
      exact ⟨by simp [h.names], List.nodup_append.mpr ⟨h.nodup, List.nodup_singleton _, by
        rintro _ hIn _ hLast rfl
        exact hNot (List.mem_singleton.mp hLast ▸ hIn)⟩⟩
    · exact h

omit [QtHash] in
theorem Naming.Sound.run {n : Naming} (h : n.Sound) (resources : List Node) : (resources.foldl Naming.add n).Sound := by
  induction resources generalizing n with
  | nil => exact h
  | cons resource resources ih => exact ih (h.add resource)

omit [Platform] in
theorem names_addComment (g : Graph) (entries : List Entry) (resource : Node) :
    (addComment g entries resource).map Entry.name = entries.map Entry.name := by
  unfold addComment
  split
  · rw [List.map_map]
    refine List.map_congr_left fun e _ => ?_
    show Entry.name (if _ then _ else _) = _
    split <;> rfl
  · rfl

omit [Platform] in
theorem names_addComments (g : Graph) (entries : List Entry) (resources : List Node) :
    (resources.foldl (addComment g) entries).map Entry.name = entries.map Entry.name := by
  induction resources generalizing entries with
  | nil => rfl
  | cons resource resources ih => rw [List.foldl_cons, ih, names_addComment]

theorem nodup_names (g : Graph) (resources : List Node) :
    ((normalizedResources g resources).map Entry.name).Nodup := by
  have hSound : (resources.foldl Naming.add ⟨[], []⟩).Sound := Naming.Sound.run ⟨rfl, List.nodup_nil⟩ resources
  refine ((List.mergeSort_perm _ _).map Entry.name).nodup_iff.mpr ?_
  rw [names_addComments, hSound.names]
  exact hSound.nodup

/-- The generated class is consistent if and only if the names that are exported keep apart, no text ends a
comment, and the URLs can be read back. -/
theorem generate_consistent_iff (order : QSet Node Node.same → List Node) (className namespaceName : QString) (g : Graph) :
    (∀ o ∈ generate order className namespaceName g, o.Consistent) ↔
      ∀ o ∈ generate order className namespaceName g, o.Clear := by
  have hNames : ∀ o ∈ generate order className namespaceName g, (o.entries.map Entry.name).Nodup := by
    intro o ho
    unfold generate at ho
    dsimp only at ho
    split at ho
    · cases ho
    · obtain rfl := Option.some.inj ho
      exact nodup_names g _
  exact forall₂_congr fun o ho => Ontology.Consistent.iff_clear (hNames o ho)

end Qt

section Example

local instance vocabularyClassQt : Qt := asciiQt

local instance vocabularyClassHash : QtHash := ⟨fun _ => 0, fun _ => 0⟩

/-- URLs without an authority and without percent encodings, and literals without escape sequences. -/
local instance vocabularyClassPlatform : Platform where
  fragment u := (u.encoded.dropWhile (· ≠ '#')).drop 1
  path u := ((u.encoded.takeWhile fun c => c ≠ '#' && c ≠ '?').dropWhile (· ≠ ':')).drop 1
  literal s := if s.all isUrlChar && !List.contains s '?' then some s.toLatin1 else none
  literal_plain s h hMark := by simp [h, hMark]

/-- Classes whose names differ in a hyphen. -/
def hyphenGraph : Graph := .ofList
  [⟨.ofUri (.ofString "urn:o#a-b" (by decide)), .ofUri RDF.type, .ofUri RDFS.Class, .empty⟩,
    ⟨.ofUri (.ofString "urn:o#ab" (by decide)), .ofUri RDF.type, .ofUri RDFS.Class, .empty⟩]

/-- Both classes get a function, of one name. -/
theorem not_generate_consistent : ∃ o, generate QSet.toList "Example".toList [] hyphenGraph = some o ∧ ¬ o.Consistent := by
  have hNames : ((normalizedResources hyphenGraph (extractRelevantResources hyphenGraph).toList).map Entry.name).Perm
      ["a-b".toList, "ab".toList] := by
    refine ((List.mergeSort_perm _ _).map Entry.name).trans ?_
    rw [names_addComments]
    exact .of_eq rfl
  have hSome : (normalizedResources hyphenGraph (extractRelevantResources hyphenGraph).toList).isEmpty = false := by
    refine Bool.eq_false_iff.mpr fun hEmpty => ?_
    rw [List.isEmpty_iff.mp hEmpty] at hNames
    exact absurd hNames.length_eq (by decide)
  refine ⟨_, by rw [generate, hSome, if_neg Bool.false_ne_true], fun h => ?_⟩
  obtain ⟨e, he, hName⟩ := List.mem_map.mp (hNames.mem_iff.mpr (List.mem_cons_self))
  obtain ⟨e', he', hName'⟩ := List.mem_map.mp (hNames.mem_iff.mpr (List.mem_cons_of_mem _ List.mem_cons_self))
  have hApart := ((Ontology.names_iff (nodup_names _ _)).mp ⟨h.functions, h.members⟩).1 e he e' he'
  rw [hName, hName'] at hApart
  exact absurd (hApart (by decide)) (by decide)

end Example

end Onto2VocabularyClass

end Soprano
