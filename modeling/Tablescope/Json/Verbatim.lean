import Tablescope.Json.Reader

/-!
# Verbatim JSON

A lenient reading of JSON, which keeps strings and the names of members as they are written between
their quotes. A backslash takes the character behind it along, whatever it is; whether the escapes
mean anything shows when a string is asked for its text with `unescape?`, so a string that nobody
asks for may hold any. A number may have leading zeros and may lack digits on one side of its point.

A verbatim value is a `Json` value, too, but its strings are sources: `unescape?` gives the text
that a source stands for.
-/

namespace Tablescope.Json

/-- The characters up to the closing quote, as they are written, and those behind it. -/
def verbatim? : List Char → Option (List Char × List Char)
  | [] => none
  | '"' :: rest => some ([], rest)
  | '\\' :: c :: rest => (verbatim? rest).map fun r => ('\\' :: c :: r.1, r.2)
  | c :: rest => if c.toNat < 0x20 then none else (verbatim? rest).map fun r => (c :: r.1, r.2)

/-- Reading a string verbatim uses up at least its closing quote. -/
theorem length_of_verbatim? {cs source after : List Char}
    (h : verbatim? cs = some (source, after)) : after.length < cs.length := by
  fun_induction verbatim? cs generalizing source after with
  | case1 => simp at h
  | case2 rest => simp_all
  | case3 c rest ih =>
    obtain ⟨⟨s, r⟩, hr, he⟩ := Option.map_eq_some_iff.1 h
    have := ih hr
    simp_all
    omega
  | case4 => simp at h
  | case5 c rest _ _ _ ih =>
    obtain ⟨⟨s, r⟩, hr, he⟩ := Option.map_eq_some_iff.1 h
    have := ih hr
    simp_all
    omega

/-- Whether a run of characters is a numeral that begins with a digit or a minus sign. -/
def isLenientNumber (cs : List Char) : Bool :=
  cs.head?.any (fun c => c = '-' || c.isDigit) && (Numeral.ofChars? cs).isSome

/-- Strings as they are written, and lenient numbers. -/
def Lexicon.verbatim : Lexicon where
  string? cs := (verbatim? cs).map fun r => (.text (String.ofList r.1), r.2)
  isNumber := isLenientNumber
  shorter h := by
    simp only [Option.map_eq_some_iff, Prod.mk.injEq] at h
    obtain ⟨⟨source, rest⟩, hv, -, rfl⟩ := h
    exact length_of_verbatim? hv

/-- The verbatim value that a text writes. -/
def parseVerbatim? (s : String) : Option Json := ofTokens? (scan .verbatim s.toList)

/-- The text of a string that is written so between its quotes. -/
def unescape? (source : String) : Option String :=
  match quoted? (source.toList ++ ['"']) with
  | some (units, []) => (joinUnits? units).map String.ofList
  | _ => none

end Tablescope.Json
