import Soprano.DateTime
import Soprano.Error
import Soprano.Qt.Arg

/-! `DBus::sendErrorReply` and `DBus::convertError`: the text of an error reply, and the error that is
cut out of it. -/

namespace Soprano

namespace QString

variable {s t a b c d : QString} {e : Char}

theorem midAt_append (s t u : QString) : midAt (s ++ (t ++ u)) s.length t.length = t := by
  have hCount : ¬ ((t.length : Int) < 0) := by omega
  have hPosition : ¬ ((s.length : Int) < 0) := by omega
  simp [midAt, hCount, hPosition]

theorem midAt_rest (s t : QString) : midAt (s ++ t) s.length (-1) = t := by
  have hPosition : ¬ ((s.length : Int) < 0) := by omega
  simp [midAt, hPosition]

/-- The first occurrence behind a text. -/
theorem indexOfAt_append (s : QString) (h : e ∉ t) (u : QString) :
    indexOfAt (s ++ (t ++ e :: u)) e s.length = (s ++ t).length := by
  have hStart : ¬ ((s.length : Int) < 0) := by omega
  have hFind : (s ++ (t ++ e :: u)).indexOf e s.length = some (s.length + t.length) :=
    indexOf_of_drop List.drop_left h
  simp only [indexOfAt, hStart, if_false, Int.toNat_natCast, hFind, List.length_append]

/-- The characters of a number. -/
theorem number_chars (n : Int) : ∀ f ∈ number n, f.isDigit = true ∨ f = '-' := by
  intro f hf
  rw [number] at hf
  split at hf
  · rcases List.mem_cons.mp hf with rfl | hf
    · exact .inr rfl
    · exact .inl ((digits_natural _).2 f hf)
  · exact .inl ((digits_natural _).2 f hf)

theorem notMem_number (n : Int) (hDigit : e.isDigit = false) (hMinus : e ≠ '-') :
    e ∉ number n := by
  intro h
  rcases number_chars n e h with hTrue | rfl
  · rw [hDigit] at hTrue
    cases hTrue
  · exact hMinus rfl

theorem number_ne_nil (n : Int) : number n ≠ [] := by
  rw [number]
  split
  · exact List.cons_ne_nil _ _
  · exact (digits_natural _).1

/-! ### The templates of the error replies -/

theorem arg_error (ha : MarkersAbove 2 a) : arg (arg "%1/%2".toList a) d = a ++ '/' :: d := by
  have hFirst : arg "%1/%2".toList a = a ++ '/' :: "%2".toList := rfl
  have hSecond : arg ('/' :: "%2".toList) d = '/' :: (d ++ []) := rfl
  rw [hFirst, arg_append ha rfl (n := 2) rfl (by decide), hSecond, List.append_nil]

theorem arg_parserError (ha : MarkersAbove 4 a) (hb : MarkersAbove 4 b) (hc : MarkersAbove 4 c) :
    arg (arg (arg (arg "%1l%2c%3/%4".toList a) b) c) d =
      a ++ 'l' :: (b ++ 'c' :: (c ++ '/' :: d)) := by
  have hFirst : arg "%1l%2c%3/%4".toList a = a ++ 'l' :: "%2c%3/%4".toList := rfl
  have hSecond : arg ('l' :: "%2c%3/%4".toList) b = 'l' :: (b ++ 'c' :: "%3/%4".toList) := rfl
  have hThird : arg ('c' :: "%3/%4".toList) c = 'c' :: (c ++ '/' :: "%4".toList) := rfl
  have hFourth : arg ('/' :: "%4".toList) d = '/' :: (d ++ []) := rfl
  have hAB : MarkersAbove 4 (a ++ 'l' :: b) := ha.append rfl ⟨fun m hm => (by cases hm), hb⟩
  have hABC : MarkersAbove 4 ((a ++ 'l' :: b) ++ 'c' :: c) :=
    hAB.append rfl ⟨fun m hm => (by cases hm), hc⟩
  rw [hFirst, arg_append ha rfl (n := 2) rfl (by decide), hSecond]
  rw [show a ++ 'l' :: (b ++ 'c' :: "%3/%4".toList) = (a ++ 'l' :: b) ++ 'c' :: "%3/%4".toList by
    simp, arg_append hAB rfl (n := 3) rfl (by decide), hThird]
  rw [show (a ++ 'l' :: b) ++ 'c' :: (c ++ '/' :: "%4".toList) =
      ((a ++ 'l' :: b) ++ 'c' :: c) ++ '/' :: "%4".toList by simp,
    arg_append hABC rfl (n := 4) rfl (by decide), hFourth]
  simp

end QString

namespace DBus

open QString

/-- `QDBusError` -/
structure QDBusError where
  name : QString
  message : QString

/-- The error reply that `sendErrorReply` makes. -/
def errorReply (e : Error) : QDBusError :=
  match e.locator with
  | some loc =>
    ⟨"org.soprano.ParserError".toList,
      arg (arg (arg (arg "%1l%2c%3/%4".toList (number e.code.toInt)) (number loc.line.toInt))
        (number loc.column.toInt)) e.message⟩
  | none => ⟨"org.soprano.Error".toList, arg (arg "%1/%2".toList (number e.code.toInt)) e.message⟩

/-- `convertError`; `none` is an error that is not valid. -/
def convertError : Option QDBusError → Error
  | some ⟨errorName, errorMessage⟩ =>
    if errorName = "org.soprano.ParserError".toList then
      let l := errorMessage.indexOfAt 'l' 1
      let c := errorMessage.indexOfAt 'c' l
      let m := errorMessage.indexOfAt '/' c
      .ofLocator ⟨(toInt (errorMessage.midAt (l + 1) (c - l - 1))).getD 0,
          (toInt (errorMessage.midAt (c + 1) (m - c - 1))).getD 0, -1, []⟩
        (errorMessage.midAt (m + 1) (-1)) ((toInt (errorMessage.midAt 0 l)).getD 0)
    else if errorName = "org.soprano.Error".toList then
      let m := errorMessage.indexOfAt '/' 1
      .ofMessage (errorMessage.midAt (m + 1) (-1)) ((toInt (errorMessage.midAt 0 m)).getD 0)
    else .ofMessage (errorName ++ " - ".toList ++ errorMessage) ErrorCode.errorUnknown.code
  | none => .none

/-- The separators are found in the text of a parser error. -/
theorem convertError_parserError {name : QString} (hName : name = "org.soprano.ParserError".toList)
    (code line column : Int32) (message : QString) :
    convertError (some ⟨name, number code.toInt ++ 'l' :: (number line.toInt ++ 'c' ::
      (number column.toInt ++ '/' :: message))⟩) =
        .ofLocator ⟨line, column, -1, []⟩ message code := by
  have hCode := toInt_number code
  have hLine := toInt_number line
  have hColumn := toInt_number column
  have hL : 'l' ∉ number code.toInt := notMem_number _ rfl (by decide)
  have hC : 'c' ∉ 'l' :: number line.toInt := by
    rw [List.mem_cons, not_or]
    exact ⟨by decide, notMem_number _ rfl (by decide)⟩
  have hM : '/' ∉ 'c' :: number column.toInt := by
    rw [List.mem_cons, not_or]
    exact ⟨by decide, notMem_number _ rfl (by decide)⟩
  obtain ⟨d, rest, hHead⟩ := List.exists_cons_of_ne_nil (number_ne_nil code.toInt)
  rw [hHead, List.mem_cons, not_or] at hL
  generalize number line.toInt = ls at *
  generalize number column.toInt = cs at *
  have hl : indexOfAt (number code.toInt ++ 'l' :: (ls ++ 'c' :: (cs ++ '/' :: message))) 'l' 1 =
      (number code.toInt).length := by
    have := indexOfAt_append [d] hL.2 (ls ++ 'c' :: (cs ++ '/' :: message))
    rw [hHead]
    simpa using this
  generalize number code.toInt = codes at *
  have hc : indexOfAt (codes ++ 'l' :: (ls ++ 'c' :: (cs ++ '/' :: message))) 'c' codes.length =
      (codes ++ 'l' :: ls).length := by
    have := indexOfAt_append codes hC (cs ++ '/' :: message)
    simpa using this
  have hm : indexOfAt (codes ++ 'l' :: (ls ++ 'c' :: (cs ++ '/' :: message))) '/'
      (codes ++ 'l' :: ls).length = ((codes ++ 'l' :: ls) ++ 'c' :: cs).length := by
    have := indexOfAt_append (codes ++ 'l' :: ls) hM message
    simpa using this
  have hMidCode : midAt (codes ++ 'l' :: (ls ++ 'c' :: (cs ++ '/' :: message))) 0 codes.length =
      codes := midAt_append [] codes ('l' :: (ls ++ 'c' :: (cs ++ '/' :: message)))
  have hMidLine : midAt (codes ++ 'l' :: (ls ++ 'c' :: (cs ++ '/' :: message))) (codes.length + 1)
      ((codes ++ 'l' :: ls).length - codes.length - 1) = ls := by
    have := midAt_append (codes ++ ['l']) ls ('c' :: (cs ++ '/' :: message))
    rw [show (((codes ++ 'l' :: ls).length : Int) - codes.length - 1) = ls.length by simp]
    simpa using this
  have hMidColumn : midAt (codes ++ 'l' :: (ls ++ 'c' :: (cs ++ '/' :: message)))
      ((codes ++ 'l' :: ls).length + 1)
      (((codes ++ 'l' :: ls) ++ 'c' :: cs).length - (codes ++ 'l' :: ls).length - 1) = cs := by
    have := midAt_append ((codes ++ 'l' :: ls) ++ ['c']) cs ('/' :: message)
    rw [show ((((codes ++ 'l' :: ls) ++ 'c' :: cs).length : Int) - (codes ++ 'l' :: ls).length - 1) =
      cs.length by simp only [List.length_append, List.length_cons]; omega]
    simpa [Int.add_assoc] using this
  have hMidMessage : midAt (codes ++ 'l' :: (ls ++ 'c' :: (cs ++ '/' :: message)))
      (((codes ++ 'l' :: ls) ++ 'c' :: cs).length + 1) (-1) = message := by
    have := midAt_rest (((codes ++ 'l' :: ls) ++ 'c' :: cs) ++ ['/']) message
    simpa [Int.add_assoc] using this
  simp only [convertError, if_pos hName, hl, hc, hm, hMidCode, hMidLine, hMidColumn, hMidMessage,
    hCode, hLine, hColumn, Option.getD_some]

theorem convertError_error {name : QString} (hName : name = "org.soprano.Error".toList)
    (code : Int32) (message : QString) :
    convertError (some ⟨name, number code.toInt ++ '/' :: message⟩) = .ofMessage message code := by
  have hCode := toInt_number code
  have hM : '/' ∉ number code.toInt := notMem_number _ rfl (by decide)
  have hOther : name ≠ "org.soprano.ParserError".toList := by
    rw [hName]
    decide
  obtain ⟨d, rest, hHead⟩ := List.exists_cons_of_ne_nil (number_ne_nil code.toInt)
  rw [hHead, List.mem_cons, not_or] at hM
  have hm : indexOfAt (number code.toInt ++ '/' :: message) '/' 1 =
      (number code.toInt).length := by
    have := indexOfAt_append [d] hM.2 message
    rw [hHead]
    simpa using this
  generalize number code.toInt = codes at *
  have hMidCode : midAt (codes ++ '/' :: message) 0 codes.length = codes :=
    midAt_append [] codes ('/' :: message)
  have hMidMessage : midAt (codes ++ '/' :: message) (codes.length + 1) (-1) = message := by
    have := midAt_rest (codes ++ ['/']) message
    simpa using this
  simp only [convertError, if_neg hOther, if_pos hName, hm, hMidCode, hMidMessage, hCode,
    Option.getD_some]

/-- Of a locator the line and the column come back. -/
def received (e : Error) : Error :=
  { e with locator := e.locator.map fun loc => ⟨loc.line, loc.column, -1, []⟩ }

/-- The constructor of `Error` fills in a message that is missing. -/
def Constructed (e : Error) : Prop :=
  e.locator = none → e.message ≠ [] ∨ ErrorCode.errorUnknown.code ≤ e.code

theorem convertError_errorReply {e : Error} (h : Constructed e) :
    convertError (some (errorReply e)) = received e := by
  have hMarkers : ∀ (n : Int) (k : Nat), MarkersAbove k (number n) := fun n k =>
    markersAbove_of_notMem (notMem_number n rfl (by decide))
  obtain ⟨message, code, locator⟩ := e
  cases locator with
  | some loc =>
    simp only [errorReply, arg_parserError (hMarkers _ 4) (hMarkers _ 4) (hMarkers _ 4)]
    rw [convertError_parserError rfl]
    rfl
  | none =>
    simp only [errorReply, arg_error (hMarkers _ 2)]
    rw [convertError_error rfl, Error.ofMessage, if_neg]
    · rfl
    · rintro ⟨hEmpty, hLow⟩
      rcases h rfl with hMessage | hHigh
      · exact hMessage (List.isEmpty_iff.mp hEmpty)
      · exact absurd hLow (Int32.not_lt.mpr hHigh)

end DBus

end Soprano
