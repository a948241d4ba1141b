import Tablescope.Proofs.Cursor.Wire
import Tablescope.Proofs.Json.Words

/-!
# Which cursors are read back

The names of a cursor that was read are different, because a member is refused if its name was
there before, and its numbers are numbers. So a cursor that lacks one of the two is never what its
own text is read as, and a cursor that has both always is.

The other way round, a text that is read as a cursor writes one JSON value, and the text of the cursor
is the compact text of that value: nothing but blanks and escapes can have changed.
-/

namespace Tablescope.Cursor

/-- Whether a cursor can be read back: its names are different, and its numbers are numbers. -/
structure IsReadable (c : Cursor) : Prop where
  nodup : (c.entries.map Prod.fst).Nodup
  numbers : ∀ e ∈ c.entries, ∀ numeral, e.2 = .number numeral → isNumber numeral = true

theorem isReadable_iff {c : Cursor} :
    c.IsReadable ↔ (c.entries.map Prod.fst).Nodup ∧ ∀ e ∈ c.entries, e.2.isReadable = true := by
  simp only [Scalar.isReadable_iff]
  exact ⟨fun h => ⟨h.nodup, h.numbers⟩, fun h => ⟨h.1, h.2⟩⟩

instance (c : Cursor) : Decidable c.IsReadable := decidable_of_iff _ isReadable_iff.symm

theorem isReadable_of_parse {text : String} {c : Cursor} (h : parse text = .ok c) :
    c.IsReadable :=
  isReadable_iff.2 (parse_iff_isWritten.1 h).2

theorem isReadable_of_decode {text : String} {c : Cursor} (h : decode text = .ok c) :
    c.IsReadable := by
  unfold decode at h
  split at h
  · exact isReadable_of_parse h
  · cases h

/-! ### Reading back exactly -/

theorem parse_toJson_iff {c : Cursor} : parse c.toJson = .ok c ↔ c.IsReadable := by
  refine ⟨isReadable_of_parse, fun h => ?_⟩
  obtain ⟨hn, hr⟩ := isReadable_iff.1 h
  exact parse_toJson hn hr

theorem decode_encode_iff {c : Cursor} : decode c.encode = .ok c ↔ c.IsReadable := by
  refine ⟨isReadable_of_decode, fun h => ?_⟩
  obtain ⟨hn, hr⟩ := isReadable_iff.1 h
  exact decode_encode hn hr

/-- A cursor is read back from its JSON text, and from its text for a URL, exactly if its names are
different and its numbers are numbers. Whatever is read as a cursor is such a cursor, and the text
for a URL has nothing in it that a URL gives a meaning to. -/
theorem reads_back_iff_isReadable (c : Cursor) :
    (parse c.toJson = .ok c ↔ c.IsReadable) ∧ (decode c.encode = .ok c ↔ c.IsReadable) ∧
      (∀ text, parse text = .ok c ∨ decode text = .ok c →
        parse c.toJson = .ok c ∧ decode c.encode = .ok c) ∧
      Text.Percent.UrlSafe c.encode.toList := by
  refine ⟨parse_toJson_iff, decode_encode_iff, ?_, Text.Percent.urlSafe_encode _⟩
  intro text h
  have hr : c.IsReadable := h.elim isReadable_of_parse isReadable_of_decode
  exact ⟨parse_toJson_iff.2 hr, decode_encode_iff.2 hr⟩

/-- The place of a picture, by a name that needs escapes and by its bytes. -/
def pictureCursor : Cursor := ⟨[("a\"\n😀", .number "-01.5e3"), ("", .binary [0, 255, 10])]⟩

/-- The place of a picture, written with blanks and with escapes that it does not need. -/
def pictureText : String :=
  " \x7b\"\\u0061\\\"\\u000A\\ud83d\\ude00\" : \x7b\"N\" : \"-01.5e3\"\x7d,
    \"\":\x7b\"\\u0042\":\"AP8K\"\x7d\x7d\n"

theorem reads_back_iff_isReadable_of_picture :
    let c := pictureCursor
    let twice : Cursor := ⟨[("id", .text "a"), ("id", .text "a")]⟩
    let blank : Cursor := ⟨[("n", .number " 1")]⟩
    parse pictureText = .ok c ∧ parse c.toJson = .ok c ∧ decode c.encode = .ok c ∧
      Text.Percent.UrlSafe c.encode.toList ∧ parse twice.toJson ≠ .ok twice ∧
      decode blank.encode ≠ .ok blank := by
  have hread : parse pictureText = .ok pictureCursor := by decide +kernel
  obtain ⟨-, -, hback, hsafe⟩ := reads_back_iff_isReadable pictureCursor
  obtain ⟨hjson, hcode⟩ := hback pictureText (.inl hread)
  refine ⟨hread, hjson, hcode, hsafe, fun h => ?_, fun h => ?_⟩
  · exact absurd ((reads_back_iff_isReadable _).1.1 h) (by decide +kernel)
  · exact absurd ((reads_back_iff_isReadable _).2.1.1 h) (by decide +kernel)

/-! ### Writing what was read -/

/-- The JSON value of a cursor has its entries in their order, texts and numbers as they are. -/
theorem json_of_isReadable {c : Cursor} (h : c.IsReadable) :
    c.json = .object (c.entries.map fun e =>
      (e.1, .object [(e.2.type.descriptor, .string e.2.render)])) := by
  rw [json, members_eq h.nodup]
  rfl

/-- A text that is read as a cursor writes one value only, and the reader of values finds it. The
cursor is written as the compact text of this value, which has the names, the numbers and the base64
texts of the cursor in their order. So a text that is compact is written again as it was, and what
was written is written again as it is. -/
theorem normalises {text : String} {c : Cursor} (h : parse text = .ok c) :
    ∃ doc : Json, (∀ other : Json, other.IsWritten text ↔ other = doc) ∧
      Json.parse? text = some doc ∧
      doc = .object (c.entries.map fun e =>
        (e.1, .object [(e.2.type.descriptor, .string e.2.render)])) ∧
      c.toJson = doc.compact ∧ (text = doc.compact → c.toJson = text) ∧
      (parse c.toJson).map toJson = .ok c.toJson := by
  have hreadable := isReadable_of_parse h
  have hdoc : c.json.IsWritten text := (parse_iff_isWritten.1 h).1
  refine ⟨c.json, fun _ => Json.isWritten_iff_eq hdoc c.isDelimited_of_mem_json,
    Json.parse?_of_isWritten hdoc, json_of_isReadable hreadable, rfl,
    fun hcompact => hcompact.symm, ?_⟩
  rw [parse_toJson_iff.2 hreadable]
  rfl

theorem normalises_of_picture :
    parse pictureText = .ok pictureCursor ∧ pictureCursor.toJson ≠ pictureText ∧
      ∃ doc : Json, doc.IsWritten pictureText ∧ pictureCursor.toJson = doc.compact ∧
        (parse pictureCursor.toJson).map toJson = .ok pictureCursor.toJson := by
  have hread : parse pictureText = .ok pictureCursor := by decide +kernel
  obtain ⟨doc, hwritten, -, -, hcompact, -, hagain⟩ := normalises hread
  exact ⟨hread, by decide +kernel, doc, (hwritten doc).2 rfl, hcompact, hagain⟩

end Tablescope.Cursor
