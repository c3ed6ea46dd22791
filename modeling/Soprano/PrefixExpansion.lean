import Mathlib.Data.List.Infix
import Soprano.Library.Selection
import Soprano.NRLModel
import Soprano.Server.DBusModelAdaptor
import Soprano.SparqlText

/-! The prefixes that `NRLModel::executeQuery` declares in front of a query.  The pass over the prefix map
is a selection, and it selects the prefixes that the query needs in every order of the map if and only if
the searches in its texts are right. -/

namespace Soprano

/-- `QRegExp`, as far as the text of an expression is not fixed. -/
class QRegExp where
  /-- `text.contains( QRegExp( pattern ) )` -/
  contains : QString → QString → Bool

/-- `QRegExp::escape` -/
def QRegExp.escape (s : QString) : QString :=
  s.flatMap fun c => if "$()*+.?[\\]^\x7b|\x7d".toList.contains c then ['\\', c] else [c]

/-- `QString::contains( const QString& )` -/
def QString.contains (s t : QString) : Bool := s.tails.any (t.isPrefixOf ·)

/-- `QString::insert` -/
def QString.insert (s : QString) (position : Nat) (t : QString) : QString :=
  s.take position ++ t ++ s.drop position

theorem QString.contains_iff {s t : QString} : s.contains t = true ↔ t <:+: s := by
  simp only [QString.contains, List.any_eq_true, List.mem_tails, List.isPrefixOf_iff_prefix,
    List.infix_iff_prefix_suffix, and_comm]

namespace NRLModel

open Vocabulary SparqlText

/-! ### The functions of the code -/

/-- The lower case of a character, as far as it is an ASCII letter: that of the Kelvin sign and of the
dotted capital I is one. -/
def lowerLetter (c : Char) : Char :=
  if c.toNat = 0x212a then 'k' else if c.toNat = 0x130 then 'i' else c.toLower

/-- A word stands at the start of a text, in either case. -/
def startsWith : QString → QString → Bool
  | [], _ => true
  | a :: word, c :: s => lowerLetter c == a && startsWith word s
  | _, [] => false

/-- `select|describe|construct|ask` matches at the start of a text. -/
def formAt (s : QString) : Bool := forms.any (startsWith · s)

/-- `indexOf` of that expression -/
def indexOfForm : QString → Option Nat
  | [] => none
  | c :: s => if formAt (c :: s) then some 0 else (indexOfForm s).map (· + 1)

section Qt

variable [Qt]

/-- A prefix and its namespace -/
abbrev Entry : Type := QString × QUrl

/-- The pattern of a declaration. -/
def declarationPattern (e : Entry) : QString :=
  QString.arg (QString.arg "[pP][rR][eE][fF][iI][xX]\\s*%1\\s*:\\s*<%2>".toList e.1)
    (QRegExp.escape (Qt.urlToString e.2))

/-- What is inserted for a prefix. -/
def insertion (e : Entry) : QString :=
  QString.arg (QString.arg "prefix %1: <%2> ".toList e.1) (Qt.urlToString e.2)

/-- A declaration as SPARQL writes it. -/
def declarationOf (e : Entry) : QString :=
  "prefix".toList ++ ' ' :: (e.1 ++ ':' :: ' ' :: '<' :: (Qt.urlToString e.2 ++ "> ".toList))

/-- `NRLModel::Private` -/
structure Private where
  expandQueryPrefixes : Bool
  /-- The entries of the hash, in the order of its iterator. -/
  prefixes : List Entry

/-- `QHash::insert` -/
def insertPrefix (prefixes : List Entry) (e : Entry) : List Entry :=
  prefixes.filter (·.1 ≠ e.1) ++ [e]

/-- The fixed prefixes -/
def fixedPrefixes : List Entry :=
  [("rdf".toList, RDF.rdfNamespace), ("rdfs".toList, RDFS.rdfsNamespace), ("xsd".toList, XMLSchema.xsdNamespace),
    ("nrl".toList, NRL.nrlNamespace), ("nao".toList, NAO.naoNamespace)]

/-- One row of the query for the prefixes in the store. -/
def addPrefix (prefixes : List Entry) (row : BindingSet) : List Entry :=
  let ab := (row.value "ab".toList).toString
  let ns := Qt.urlOfString (row.value "ns".toList).toString
  if prefixes.any (·.1 = ab) then prefixes else insertPrefix prefixes (ab, ns)

/-- `buildPrefixMap`, by the rows of its query. -/
def buildPrefixMap (rows : List BindingSet) : List Entry := rows.foldl addPrefix fixedPrefixes

omit [Qt] in
theorem nodup_insertPrefix {prefixes : List Entry} (h : (prefixes.map Prod.fst).Nodup) (e : Entry) :
    ((insertPrefix prefixes e).map Prod.fst).Nodup := by
  have hOthers : ((prefixes.filter (·.1 ≠ e.1)).map Prod.fst).Nodup := h.sublist (List.filter_sublist.map _)
  rw [insertPrefix, List.map_append]
  refine hOthers.append (List.nodup_singleton _) (List.disjoint_singleton.mpr fun hMem => ?_)
  obtain ⟨f, hf, hName⟩ := List.mem_map.mp hMem
  exact of_decide_eq_true (List.mem_filter.mp hf).2 hName

/-- The prefix map has one namespace for each prefix. -/
theorem nodup_buildPrefixMap (rows : List BindingSet) : ((buildPrefixMap rows).map Prod.fst).Nodup := by
  have hRows : ∀ prefixes : List Entry, (prefixes.map Prod.fst).Nodup →
      ((rows.foldl addPrefix prefixes).map Prod.fst).Nodup := by
    induction rows with
    | nil => exact fun _ h => h
    | cons row rows ih =>
      intro prefixes h
      refine ih _ ?_
      rw [addPrefix]
      split
      next => exact h
      next => exact nodup_insertPrefix h _
  exact hRows _ (by decide)

variable [QRegExp]

/-- The prefix is used and not declared, as far as the searches tell. -/
def isMissing (text : QString) (e : Entry) : Bool :=
  text.contains (e.1 ++ [':']) && !QRegExp.contains text (declarationPattern e)

def expandPrefix (position : Nat) (text : QString) (e : Entry) : QString :=
  if isMissing text e then text.insert position (insertion e) else text

/-- The text that `executeQuery` passes on. -/
def expandedQuery (d : Private) (query : QString) (language : QueryLanguage) : QString :=
  if language = .sparql ∧ d.expandQueryPrefixes = true then
    match indexOfForm query with
    | some position => d.prefixes.foldl (expandPrefix position) query
    | none => query
  else query

/-! ### What is claimed of an expansion -/

/-- The query with declarations directly in front of its query form. -/
def expansion (query : QString) (added : List Entry) : QString :=
  textOf (front (tokens query)) ++ added.flatMap declarationOf ++ textOf (body (tokens query))

def isNeeded (query : QString) (e : Entry) : Bool := needs query e.1

/-- The known prefixes that a query needs. -/
def needed (prefixes : List Entry) (query : QString) : List Entry := prefixes.filter (isNeeded query)

/-- In every order of the prefix map, each known prefix that is needed is declared once in front of the
query form, and nothing else changes. -/
def Preserved (prefixes : List Entry) (query : QString) : Prop :=
  ∀ order : List Entry, order.Perm prefixes → ∃ added : List Entry, added.Perm (needed prefixes query) ∧
    expandedQuery ⟨true, order⟩ query .sparql = expansion query added

/-- Some of the known prefixes that a query needs. -/
structure Chosen (prefixes : List Entry) (query : QString) (added : List Entry) : Prop where
  nodup : added.Nodup
  needed : ∀ e ∈ added, e ∈ prefixes ∧ isNeeded query e = true

/-- The searches find what they are meant to find: the first match of the query forms is the query form,
and with some of the declarations in place no other prefix is found to be declared that is needed, and
none that is not needed is found in use without being found to be declared. -/
structure Clear (prefixes : List Entry) (query : QString) : Prop where
  place : (∃ e ∈ prefixes, isNeeded query e = true) →
    indexOfForm query = some (textOf (front (tokens query))).length
  undeclared : ∀ {added e}, Chosen prefixes query added → e ∈ prefixes → e ∉ added →
    isNeeded query e = true → QRegExp.contains (expansion query added) (declarationPattern e) = false
  unused : ∀ {added e}, Chosen prefixes query added → e ∈ prefixes → e ∉ added →
    isNeeded query e = false → (expansion query added).contains (e.1 ++ [':']) = true →
    QRegExp.contains (expansion query added) (declarationPattern e) = true

/-! ### The pass over the prefixes -/

variable {prefixes added order : List Entry} {query : QString} {e : Entry}

/-- The text between two others, with what was inserted for some prefixes. -/
def between (before after : QString) (kept : List Entry) : QString :=
  before ++ kept.flatMap insertion ++ after

theorem expandPrefix_between (before after : QString) (kept : List Entry) (e : Entry) :
    expandPrefix before.length (between before after kept) e =
      between before after (if isMissing (between before after kept) e then e :: kept else kept) := by
  rw [expandPrefix]
  split
  next => simp [QString.insert, between]
  next => rfl

/-- The loop is a selection. -/
theorem foldl_expandPrefix (before after : QString) (kept order : List Entry) :
    order.foldl (expandPrefix before.length) (between before after kept) =
      between before after (Selection.select (fun kept => isMissing (between before after kept)) kept order) := by
  induction order generalizing kept with
  | nil => rfl
  | cons e order ih => rw [List.foldl_cons, expandPrefix_between, ih, Selection.select]

omit [QRegExp] in
theorem insertion_eq (h : '%' ∉ e.1) : insertion e = declarationOf e := by
  have hMarker : QString.MarkersAbove 1 (':' :: ' ' :: '<' :: "%2> ".toList) :=
    .of_notMem_append (s := [':', ' ', '<']) (by decide)
      (.marker rfl (by decide) rfl (QString.markersAbove_of_notMem (by decide)))
  have hFirst : QString.arg "prefix %1: <%2> ".toList e.1 =
      "prefix".toList ++ ' ' :: (e.1 ++ ':' :: ' ' :: '<' :: "%2> ".toList) := by
    have hTemplate : "prefix %1: <%2> ".toList =
        "prefix".toList ++ ' ' :: '%' :: '1' :: ':' :: ' ' :: '<' :: "%2> ".toList := by decide
    rw [hTemplate]
    exact QString.arg_once rfl (QString.markersAbove_of_notMem (by decide)) rfl rfl hMarker rfl
  have hHead : '%' ∉ "prefix".toList ++ ' ' :: (e.1 ++ [':', ' ']) := by
    have hWord : '%' ∉ "prefix".toList := by decide
    simp only [List.mem_append, List.mem_cons, hWord, h]
    decide
  have hSecond : QString.arg ("prefix".toList ++ ' ' :: (e.1 ++ [':', ' ']) ++ '<' :: "%2> ".toList)
      (Qt.urlToString e.2) =
      "prefix".toList ++ ' ' :: (e.1 ++ [':', ' ']) ++ '<' :: (Qt.urlToString e.2 ++ "> ".toList) := by
    have hTemplate : "%2> ".toList = '%' :: '2' :: '>' :: [' '] := by decide
    rw [hTemplate]
    exact QString.arg_once rfl (QString.markersAbove_of_notMem hHead) rfl rfl
      (QString.markersAbove_of_notMem (by decide)) rfl
  have hAssoc : ∀ w rest : QString,
      w ++ ' ' :: (e.1 ++ ':' :: ' ' :: '<' :: rest) = w ++ ' ' :: (e.1 ++ [':', ' ']) ++ '<' :: rest := by
    simp
  calc insertion e
      = QString.arg ("prefix".toList ++ ' ' :: (e.1 ++ ':' :: ' ' :: '<' :: "%2> ".toList))
          (Qt.urlToString e.2) := congrArg (QString.arg · _) hFirst
    _ = QString.arg ("prefix".toList ++ ' ' :: (e.1 ++ [':', ' ']) ++ '<' :: "%2> ".toList)
          (Qt.urlToString e.2) := congrArg (QString.arg · _) (hAssoc _ _)
    _ = _ := hSecond
    _ = declarationOf e := (hAssoc _ _).symm

omit [QRegExp] in
theorem flatMap_declarationOf_cons (e : Entry) (es : List Entry) :
    (e :: es).flatMap declarationOf = "prefix".toList ++
      ' ' :: (e.1 ++ ':' :: ' ' :: '<' :: (Qt.urlToString e.2 ++ ("> ".toList ++ es.flatMap declarationOf))) := by
  have hAssoc : ∀ w a u v rest : QString, (w ++ ' ' :: (a ++ ':' :: ' ' :: '<' :: (u ++ v))) ++ rest =
      w ++ ' ' :: (a ++ ':' :: ' ' :: '<' :: (u ++ (v ++ rest))) := by
    simp
  exact hAssoc _ _ _ _ _

omit [QRegExp] in
/-- The declarations of known prefixes tell the prefixes. -/
theorem flatMap_declarationOf_inj (hKeys : (prefixes.map Prod.fst).Nodup) (hColon : ∀ e ∈ prefixes, ':' ∉ e.1)
    {es fs : List Entry} (hEs : es ⊆ prefixes) (hFs : fs ⊆ prefixes)
    (h : es.flatMap declarationOf = fs.flatMap declarationOf) : es = fs := by
  induction es generalizing fs with
  | nil =>
    cases fs with
    | nil => rfl
    | cons f fs => cases h
  | cons e es ih =>
    cases fs with
    | nil => cases h
    | cons f fs =>
      obtain ⟨he, hEs'⟩ := List.cons_subset.mp hEs
      obtain ⟨hf, hFs'⟩ := List.cons_subset.mp hFs
      rw [flatMap_declarationOf_cons, flatMap_declarationOf_cons] at h
      have hTail := List.append_cancel_left h
      rw [List.cons.injEq] at hTail
      obtain ⟨hName, hRest⟩ := (Codec.Reads.append_cons_inj (hColon e he) (hColon f hf)).mp hTail.2
      obtain rfl := List.inj_on_of_nodup_map hKeys he hf hName
      rw [List.cons.injEq, List.cons.injEq] at hRest
      have hLater : es.flatMap declarationOf = fs.flatMap declarationOf :=
        List.append_cancel_left (List.append_cancel_left hRest.2.2)
      rw [ih hEs' hFs' hLater]

omit [QRegExp] in
theorem flatMap_insertion (h : ∀ e ∈ added, '%' ∉ e.1) :
    added.flatMap insertion = added.flatMap declarationOf := by
  rw [List.flatMap_def, List.map_congr_left fun e he => insertion_eq (h e he), ← List.flatMap_def]

omit [QRegExp] in
theorem flatMap_declarationOf_eq_nil : added.flatMap declarationOf = [] ↔ added = [] := by
  cases added with
  | nil => exact iff_of_true rfl rfl
  | cons e added => exact iff_of_false nofun nofun

omit [QRegExp] in
theorem head?_flatMap_declarationOf {c : Char} (h : (added.flatMap declarationOf).head? = some c) : c = 'p' := by
  cases added with
  | nil => cases h
  | cons e added => exact (Option.some.inj h).symm

/-! ### Where the first match is -/

omit [Qt] [QRegExp] in
theorem indexOfForm_append (before : QString) {after : QString} (h : formAt after = true) :
    ∃ position ≤ before.length, indexOfForm (before ++ after) = some position ∧
      formAt ((before ++ after).drop position) = true := by
  induction before with
  | nil =>
    cases after with
    | nil => cases h
    | cons c after => exact ⟨0, le_rfl, if_pos h, h⟩
  | cons c before ih =>
    by_cases hHere : formAt (c :: (before ++ after)) = true
    · exact ⟨0, Nat.zero_le _, if_pos hHere, hHere⟩
    · obtain ⟨position, hLe, hIndex, hForm⟩ := ih
      refine ⟨position + 1, Nat.succ_le_succ hLe, ?_, hForm⟩
      rw [List.cons_append, indexOfForm, if_neg hHere, hIndex]
      rfl

omit [Qt] [QRegExp] in
theorem lowerLetter_of_toLower {c a : Char} (h : c.toLower = a) (ha : a.toNat < 128) : lowerLetter c = a := by
  have hFixed : ∀ n, c.toNat = n → (Char.ofNat n).toLower.toNat = n → n < 128 := by
    rintro n hn hLower
    have hc : Char.ofNat n = c := by rw [← hn, Char.ofNat_toNat]
    rw [hc, h] at hLower
    omega
  rw [lowerLetter, if_neg fun hc => absurd (hFixed _ hc (by decide)) (by decide),
    if_neg fun hc => absurd (hFixed _ hc (by decide)) (by decide), h]

omit [Qt] [QRegExp] in
theorem startsWith_of_lower {w : QString} (hAscii : ∀ c ∈ lower w, c.toNat < 128) (rest : QString) :
    startsWith (lower w) (w ++ rest) = true := by
  induction w with
  | nil => rfl
  | cons c w ih =>
    have hHead := lowerLetter_of_toLower (c := c) rfl (hAscii _ List.mem_cons_self)
    have hTail := ih fun d hd => hAscii d (List.mem_cons_of_mem _ hd)
    rw [lower, List.map_cons, List.cons_append, startsWith, Bool.and_eq_true]
    exact ⟨beq_iff_eq.mpr hHead, hTail⟩

omit [Qt] [QRegExp] in
/-- The expression matches where the query form stands. -/
theorem formAt_body (h : IsQuery query) : formAt (textOf (body (tokens query))) = true := by
  obtain ⟨w, ts, hBody, hForm⟩ := exists_form h
  have hAll : forms.all (fun word => word.all fun c => c.toNat < 128) = true := rfl
  have hAscii : ∀ word ∈ forms, ∀ c ∈ word, c.toNat < 128 := fun word hWord c hc =>
    of_decide_eq_true (List.all_eq_true.mp (List.all_eq_true.mp hAll word hWord) c hc)
  rw [hBody, textOf_cons, formAt, List.any_eq_true]
  exact ⟨lower w, hForm, startsWith_of_lower (hAscii _ hForm) _⟩

/-! ### When the expansion is right -/

/-- The prefix is found to be missing in the query with some declarations in place. -/
def missingIn (query : QString) (added : List Entry) (e : Entry) : Bool := isMissing (expansion query added) e

omit [QRegExp] in
theorem expansion_contains (h : isNeeded query e = true) :
    (expansion query added).contains (e.1 ++ [':']) = true := by
  have hBody : e.1 ++ [':'] <:+: textOf (body (tokens query)) := isInfix_of_uses (Bool.and_eq_true_iff.mp h).1
  exact QString.contains_iff.mpr (hBody.trans (List.suffix_append _ _).isInfix)

theorem Clear.right (h : Clear prefixes query) :
    Selection.Right (missingIn query) prefixes (isNeeded query) := by
  intro added hNodup hNeeded e he hNot
  have hChosen : Chosen prefixes query added := ⟨hNodup, hNeeded⟩
  cases hNeeds : isNeeded query e with
  | true =>
    rw [missingIn, isMissing, expansion_contains hNeeds, h.undeclared hChosen he hNot hNeeds]
    rfl
  | false =>
    rw [missingIn, isMissing]
    cases hUsed : (expansion query added).contains (e.1 ++ [':']) with
    | true =>
      rw [h.unused hChosen he hNot hNeeds hUsed]
      rfl
    | false => rfl

theorem Clear.of_right
    (hPlace : (∃ e ∈ prefixes, isNeeded query e = true) →
      indexOfForm query = some (textOf (front (tokens query))).length)
    (hRight : Selection.Right (missingIn query) prefixes (isNeeded query)) : Clear prefixes query := by
  refine ⟨hPlace, fun {added e} hChosen he hNot hNeeds => ?_, fun {added e} hChosen he hNot hNeeds hUsed => ?_⟩
  · have hMissing := hRight added hChosen.nodup hChosen.needed e he hNot
    rw [hNeeds, missingIn, isMissing, expansion_contains hNeeds, Bool.true_and, Bool.not_eq_true'] at hMissing
    exact hMissing
  · have hMissing := hRight added hChosen.nodup hChosen.needed e he hNot
    rw [hNeeds, missingIn, isMissing, hUsed, Bool.true_and, Bool.not_eq_false'] at hMissing
    exact hMissing

/-- `executeQuery` with the expansion of prefixes turned on selects from the prefix map. -/
theorem expandedQuery_eq {position : Nat} (hIndex : indexOfForm query = some position)
    (hLe : position ≤ query.length) (order : List Entry) :
    expandedQuery ⟨true, order⟩ query .sparql =
      between (query.take position) (query.drop position)
        (Selection.select (fun kept => isMissing (between (query.take position) (query.drop position) kept))
          [] order) := by
  have hLength : (query.take position).length = position := List.length_take_of_le hLe
  have hText : between (query.take position) (query.drop position) [] = query := by
    simp [between]
  have hFold := foldl_expandPrefix (query.take position) (query.drop position) [] order
  rw [hLength, hText] at hFold
  rw [expandedQuery, if_pos ⟨rfl, rfl⟩, hIndex]
  exact hFold

/-- The selection at a place of the query. -/
def selectAt (query : QString) (position : Nat) (order : List Entry) : List Entry :=
  Selection.select (fun kept => isMissing (between (query.take position) (query.drop position) kept)) [] order

omit [QRegExp] in
theorem between_front_body (h : ∀ e ∈ added, '%' ∉ e.1) :
    between (textOf (front (tokens query))) (textOf (body (tokens query))) added = expansion query added := by
  rw [between, expansion, flatMap_insertion h]

omit [QRegExp] [Qt] in
theorem percent_notMem (h : isNeeded query e = true) : '%' ∉ e.1 :=
  notMem_of_isLabel (isLabel_of_needs h) (by decide)

section Place

variable {position : Nat}
  (hPlace : (∃ e ∈ prefixes, isNeeded query e = true) → position = (textOf (front (tokens query))).length)

include hPlace

omit [QRegExp] in
theorem between_chosen (hAdded : ∀ e ∈ added, e ∈ prefixes ∧ isNeeded query e = true) :
    between (query.take position) (query.drop position) added = expansion query added := by
  cases added with
  | nil => simp [between, expansion, front_append_body]
  | cons e added =>
    have hPosition := hPlace ⟨e, hAdded e List.mem_cons_self⟩
    have hText := front_append_body query
    have hTake : query.take position = textOf (front (tokens query)) := by
      rw [← congrArg (List.take position) hText, List.take_left' hPosition.symm]
    have hDrop : query.drop position = textOf (body (tokens query)) := by
      rw [← congrArg (List.drop position) hText, List.drop_left' hPosition.symm]
    rw [hTake, hDrop]
    exact between_front_body fun f hf => percent_notMem (hAdded f hf).2

theorem right_at_iff :
    Selection.Right (fun kept => isMissing (between (query.take position) (query.drop position) kept)) prefixes
      (isNeeded query) ↔ Selection.Right (missingIn query) prefixes (isNeeded query) :=
  Selection.right_congr fun kept hKept => by
    funext e
    rw [between_chosen hPlace hKept, missingIn]

end Place

omit [Qt] [QRegExp] in
/-- The first match is the query form, or stands in front of it. -/
theorem exists_position (hQuery : IsQuery query) :
    ∃ position ≤ (textOf (front (tokens query))).length, indexOfForm query = some position ∧
      formAt (query.drop position) = true := by
  have hMatch := indexOfForm_append (textOf (front (tokens query))) (formAt_body hQuery)
  rw [front_append_body] at hMatch
  exact hMatch

omit [Qt] [QRegExp] in
theorem le_length_query {position : Nat} (h : position ≤ (textOf (front (tokens query))).length) :
    position ≤ query.length := by
  have hText := congrArg List.length (front_append_body query)
  rw [List.length_append] at hText
  omega

/-- With clear searches the query is preserved. -/
theorem Clear.preserved (hQuery : IsQuery query) (hNodup : prefixes.Nodup) (h : Clear prefixes query) :
    Preserved prefixes query := by
  obtain ⟨position, hLe, hIndex, -⟩ := exists_position hQuery
  have hPlace : (∃ e ∈ prefixes, isNeeded query e = true) →
      position = (textOf (front (tokens query))).length := fun hSome =>
    Option.some.inj (hIndex.symm.trans (h.place hSome))
  intro order hOrder
  have hSelected : (selectAt query position order).Perm (needed prefixes query) :=
    (Selection.forall_perm_iff hNodup).mpr ((right_at_iff hPlace).mpr h.right) order hOrder
  refine ⟨_, hSelected, ?_⟩
  rw [expandedQuery_eq hIndex (le_length_query hLe)]
  exact between_chosen hPlace fun e he => List.mem_filter.mp (hSelected.subset he)

omit [Qt] [QRegExp] in
theorem ne_of_formAt {c : Char} {s : QString} (h : formAt (c :: s) = true) : c ≠ 'p' := by
  rintro rfl
  cases h

omit [Qt] [QRegExp] in
/-- A text that begins a query form does not move past declarations. -/
theorem append_ne_append {before inserted declared mid after : QString} (hForm : formAt (mid ++ after) = true)
    (hMid : mid ≠ []) (hInserted : ∀ c, inserted.head? = some c → c = 'p') (hDeclared : declared ≠ []) :
    before ++ inserted ++ (mid ++ after) ≠ before ++ mid ++ declared ++ after := by
  intro hText
  have hMoved : inserted ++ mid = mid ++ declared := by
    simp only [List.append_assoc] at hText
    have hTail := List.append_cancel_left hText
    rw [← List.append_assoc, ← List.append_assoc] at hTail
    exact List.append_cancel_right hTail
  obtain ⟨c, mid, rfl⟩ := List.exists_cons_of_ne_nil hMid
  cases inserted with
  | nil => exact hDeclared (List.self_eq_append_right.mp hMoved)
  | cons d inserted =>
    have hHead : d = c := (List.cons.inj hMoved).1
    exact ne_of_formAt hForm (hHead.symm.trans (hInserted d rfl))

/-- Declarations that are inserted elsewhere than in front of the query form are not preserved. -/
theorem Preserved.place (hQuery : IsQuery query) (hPercent : ∀ e ∈ prefixes, '%' ∉ e.1)
    (h : Preserved prefixes query) (hSome : ∃ e ∈ prefixes, isNeeded query e = true) :
    indexOfForm query = some (textOf (front (tokens query))).length := by
  obtain ⟨position, hLe, hIndex, hForm⟩ := exists_position hQuery
  obtain ⟨added, hAdded, hText⟩ := h prefixes (List.Perm.refl _)
  rw [expandedQuery_eq hIndex (le_length_query hLe)] at hText
  rcases Nat.eq_or_lt_of_le hLe with rfl | hLt
  · exact hIndex
  exfalso
  obtain ⟨before, mid, hFront, hBefore⟩ : ∃ before mid : QString,
      textOf (front (tokens query)) = before ++ mid ∧ before.length = position :=
    ⟨_, _, (List.take_append_drop position _).symm, List.length_take_of_le hLe⟩
  have hQueryText : query = before ++ (mid ++ textOf (body (tokens query))) := by
    rw [← List.append_assoc, ← hFront, front_append_body]
  have hTake : query.take position = before := by rw [hQueryText, List.take_left' hBefore]
  have hDrop : query.drop position = mid ++ textOf (body (tokens query)) := by
    conv_lhs => rw [hQueryText]
    rw [List.drop_left' hBefore]
  have hMid : mid ≠ [] := by
    rintro rfl
    rw [hFront, List.append_nil, hBefore] at hLt
    exact Nat.lt_irrefl _ hLt
  rw [hDrop] at hForm
  rw [between, expansion, hTake, hDrop, hFront] at hText
  refine append_ne_append hForm hMid (fun c hc => ?_) (fun hNil => ?_) hText
  · rw [flatMap_insertion fun e he => hPercent e (Selection.select_subset _ he)] at hc
    exact head?_flatMap_declarationOf hc
  · obtain ⟨e, he, hNeeded⟩ := hSome
    have hMem : e ∈ added := hAdded.symm.subset (List.mem_filter.mpr ⟨he, hNeeded⟩)
    rw [flatMap_declarationOf_eq_nil.mp hNil] at hMem
    cases hMem

/-- Where the query is preserved, the searches are clear. -/
theorem Preserved.clear (hQuery : IsQuery query) (hKeys : (prefixes.map Prod.fst).Nodup)
    (hNames : ∀ e ∈ prefixes, ':' ∉ e.1 ∧ '%' ∉ e.1) (h : Preserved prefixes query) : Clear prefixes query := by
  have hPercent : ∀ e ∈ prefixes, '%' ∉ e.1 := fun e he => (hNames e he).2
  have hIndexed := h.place hQuery hPercent
  obtain ⟨position, hLe, hIndex, -⟩ := exists_position hQuery
  have hPlace : (∃ e ∈ prefixes, isNeeded query e = true) →
      position = (textOf (front (tokens query))).length := fun hSome =>
    Option.some.inj (hIndex.symm.trans (hIndexed hSome))
  refine .of_right hIndexed ((right_at_iff hPlace).mp
    ((Selection.forall_perm_iff hKeys.of_map).mp fun order hOrder => ?_))
  obtain ⟨added, hAdded, hText⟩ := h order hOrder
  rw [expandedQuery_eq hIndex (le_length_query hLe)] at hText
  have hKnown : ∀ e ∈ added, e ∈ prefixes ∧ isNeeded query e = true := fun e he =>
    List.mem_filter.mp (hAdded.subset he)
  have hSubset : selectAt query position order ⊆ prefixes := fun e he =>
    hOrder.subset (Selection.select_subset order he)
  have hInserted : (selectAt query position order).flatMap insertion = added.flatMap insertion := by
    rw [← between_chosen hPlace hKnown, between, between] at hText
    exact List.append_cancel_left (List.append_cancel_right hText)
  rw [flatMap_insertion fun e he => hPercent e (hSubset he),
    flatMap_insertion fun e he => hPercent e (hKnown e he).1] at hInserted
  have hEq : selectAt query position order = added :=
    flatMap_declarationOf_inj hKeys (fun e he => (hNames e he).1) hSubset (fun e he => (hKnown e he).1) hInserted
  change (selectAt query position order).Perm (needed prefixes query)
  rw [hEq]
  exact hAdded

/-- `executeQuery` preserves a query while it declares the prefixes that the query needs, whatever the order
of the prefix map: it does when its searches are clear, and, for prefixes without colons and percent
signs, only then. -/
theorem preserved_iff_clear (prefixes : List Entry) (query : QString) (hQuery : IsQuery query)
    (hKeys : (prefixes.map Prod.fst).Nodup) :
    (Clear prefixes query → Preserved prefixes query) ∧
      ((∀ e ∈ prefixes, ':' ∉ e.1 ∧ '%' ∉ e.1) → Preserved prefixes query → Clear prefixes query) :=
  ⟨fun h => h.preserved hQuery hKeys.of_map, fun hNames h => h.clear hQuery hKeys hNames⟩

end Qt

section Example

local instance expansionQt : Qt := asciiQt

/-- The items of an expression without groups, alternatives and repetitions other than of white space: the
characters of each, and whether it repeats. -/
def itemsOf : Option (List Char) → QString → List (List Char × Bool)
  | none, '[' :: s => itemsOf (some []) s
  | none, '\\' :: 's' :: '*' :: s => ([' ', '\t', '\n', '\r'], true) :: itemsOf none s
  | none, '\\' :: c :: s => ([c], false) :: itemsOf none s
  | none, c :: s => ([c], false) :: itemsOf none s
  | some cs, ']' :: s => (cs, false) :: itemsOf none s
  | some cs, c :: s => itemsOf (some (c :: cs)) s
  | _, [] => []

def matchesItems : List (List Char × Bool) → QString → Bool
  | [], _ => true
  | (cs, true) :: items, s =>
      (List.range ((s.takeWhile cs.contains).length + 1)).any fun n => matchesItems items (s.drop n)
  | (cs, false) :: items, c :: s => cs.contains c && matchesItems items s
  | _, [] => false

local instance expansionRegExp : QRegExp where
  contains text pattern := text.tails.any (matchesItems (itemsOf none pattern))

def rdfEntry : Entry := ("rdf".toList, RDF.rdfNamespace)

def typeQuery : QString := "select * where \x7b ?s rdf:type ?o \x7d".toList

theorem Chosen.eq_nil {added : List Entry} {e : Entry} (h : Chosen [rdfEntry] typeQuery added)
    (he : e ∈ [rdfEntry]) (hNot : e ∉ added) : added = [] := by
  obtain rfl := List.mem_singleton.mp he
  cases added with
  | nil => rfl
  | cons f added =>
    obtain rfl := List.mem_singleton.mp (h.needed f List.mem_cons_self).1
    exact absurd List.mem_cons_self hNot

theorem preserved_iff_clear_example : Preserved [rdfEntry] typeQuery := by
  refine (preserved_iff_clear _ _ (by decide) (by decide)).1
    ⟨fun _ => by decide, fun {added e} hChosen he hNot _ => ?_, fun {added e} hChosen he hNot hNeeds => ?_⟩
  · obtain rfl := hChosen.eq_nil he hNot
    obtain rfl := List.mem_singleton.mp he
    decide
  · obtain rfl := List.mem_singleton.mp he
    exact absurd hNeeds (by decide)

/-- The first match of the query forms need not be the query form. -/
theorem not_preserved :
    ¬ ∀ (prefixes : List Entry) (query : QString), IsQuery query → (prefixes.map Prod.fst).Nodup →
      Preserved prefixes query := by
  intro h
  have hQuery : IsQuery "prefix t: <urn:task#> select * where \x7b ?s rdf:type t:a \x7d".toList := by decide
  have hPreserved := h [rdfEntry] _ hQuery (by decide)
  have hPlace := hPreserved.place hQuery (by decide) ⟨rdfEntry, List.mem_singleton_self _, by decide⟩
  revert hPlace
  decide

end Example

end NRLModel

end Soprano
