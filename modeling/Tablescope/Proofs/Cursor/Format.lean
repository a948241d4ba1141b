import Mathlib.Data.List.Forall2
import Mathlib.Data.List.Nodup
import Tablescope.Cursor.Wire
import Tablescope.Proofs.Attribute.Scalar
import Tablescope.Proofs.Except
import Tablescope.Proofs.Json.Grammar
import Tablescope.Proofs.Text.Base64

/-!
# The texts of cursors

What the text of a cursor is, and what is told of any other, without the reader: a text *writes* a
cursor if it writes the document of members that say the cursor's entries under different names. Any
other text has a first offence. Behind the members that are in order comes one that is well written
and wrong, or there comes neither a member nor the end.

Reading keeps to this. Every text writes a cursor or has an offence, and the reader says which.
-/

namespace Tablescope.Cursor

/-! ### Members -/

/-- A member as it is written: its name, the type whose letter is the name inside its value, and the
string there. -/
structure Member where
  name : String
  type : ScalarType
  text : String

/-- The member of a JSON object. -/
def Member.json (m : Member) : String × Json :=
  (m.name, .object [(m.type.descriptor, .string m.text)])

/-- The object with these members. -/
def document (ms : List Member) : Json := .object (ms.map Member.json)

/-- Whether a member says an entry. A number is kept as it is written; a base64 text says the bytes
that are written so. -/
inductive Member.Says : Member → Entry → Prop
  | text {name text : String} : Says ⟨name, .text, text⟩ (name, .text text)
  | number {name text : String} (h : isNumber text = true) :
    Says ⟨name, .number, text⟩ (name, .number text)
  | binary {name : String} {bytes : List UInt8} :
    Says ⟨name, .binary, Text.Base64.encode bytes⟩ (name, .binary bytes)

/-- Whether this is what is wrong with a member behind others with these names. -/
inductive Member.Offends (names : List String) : Member → CursorFault → Prop
  /-- This is told of a name that was there before, whatever else is wrong. -/
  | duplicate {m : Member} (h : m.name ∈ names) : Offends names m (.duplicate m.name)
  | notANumber {name text : String} (hnew : name ∉ names) (h : isNumber text = false) :
    Offends names ⟨name, .number, text⟩ (.notANumber name text)
  | notBase64 {name text : String} (hnew : name ∉ names)
    (h : ∀ bytes, Text.Base64.encode bytes ≠ text) :
    Offends names ⟨name, .binary, text⟩ (.notBase64 name)

/-- Whether members say these entries, each under a name of its own. -/
structure Say (ms : List Member) (es : List Entry) : Prop where
  nodup : (ms.map Member.name).Nodup
  each : List.Forall₂ Member.Says ms es

/-! ### Texts -/

/-- The tokens of a member. -/
def Member.tokens (m : Member) : List Json.Token :=
  [.text m.name, .colon, .openObject, .text m.type.descriptor, .colon, .text m.text, .closeObject]

/-- The tokens of members with commas between them. -/
def joined : List Member → List Json.Token
  | [] => []
  | m :: ms => m.tokens ++ ms.flatMap fun m => .comma :: m.tokens

/-- Whether a text begins as an object with these members does, up to the last of them. -/
def Begins (text : String) (ms : List Member) : Prop :=
  Json.Token.Begin (.openObject :: joined ms) text.toList

/-- Whether a text is the text of a cursor, with any blanks and escapes. -/
def Writes (text : String) (c : Cursor) : Prop :=
  ∃ ms, (document ms).IsWritten text ∧ Say ms c.entries

/-- Whether this is the first that is wrong with a text. Everything in front of it is members that
say entries, under different names. -/
inductive Offence (text : String) : CursorFault → Prop
  /-- A further member is well written, but it is wrong. -/
  | member {ms : List Member} {es : List Entry} {m : Member} {fault : CursorFault}
    (hms : Say ms es) (hb : Begins text (ms ++ [m])) (hm : m.Offends (ms.map Member.name) fault) :
    Offence text fault
  /-- No further member is there, and the object does not end with the text either. -/
  | malformed {ms : List Member} {es : List Entry} (hms : Say ms es)
    (hb : ms ≠ [] → Begins text ms) (hnext : ∀ m, ¬Begins text (ms ++ [m]))
    (hend : ¬(document ms).IsWritten text) : Offence text .malformed

/-! ### Members of entries -/

/-- The member that an entry is written as. -/
def Member.ofEntry (e : Entry) : Member := ⟨e.1, e.2.type, e.2.render⟩

/-- An entry that can be read back is said by the member that it is written as, and by no other. -/
theorem Member.says_iff {m : Member} {e : Entry} :
    m.Says e ↔ m = ofEntry e ∧ e.2.isReadable = true := by
  constructor
  · rintro (_ | hn | _)
    · exact ⟨rfl, rfl⟩
    · exact ⟨rfl, hn⟩
    · exact ⟨rfl, rfl⟩
  · obtain ⟨name, s⟩ := e
    rintro ⟨rfl, hr⟩
    cases s with
    | text text => exact .text
    | number numeral => exact .number hr
    | binary bytes => exact .binary

theorem Member.Says.name_eq {m : Member} {e : Entry} (h : m.Says e) : e.1 = m.name := by
  rw [(says_iff.1 h).1, ofEntry]

theorem forall₂_says_iff {ms : List Member} {es : List Entry} :
    List.Forall₂ Member.Says ms es ↔
      ms = es.map .ofEntry ∧ ∀ e ∈ es, e.2.isReadable = true := by
  constructor
  · intro h
    induction h with
    | nil => simp
    | cons hm _ ih =>
      obtain ⟨rfl, hr⟩ := Member.says_iff.1 hm
      exact ⟨by rw [List.map_cons, ← ih.1], List.forall_mem_cons.2 ⟨hr, ih.2⟩⟩
  · rintro ⟨rfl, hr⟩
    rw [List.forall₂_map_left_iff, List.forall₂_same]
    exact fun e he => Member.says_iff.2 ⟨rfl, hr e he⟩

theorem names_map_ofEntry (es : List Entry) :
    (es.map Member.ofEntry).map Member.name = es.map Prod.fst := by
  rw [List.map_map]
  rfl

theorem say_iff {ms : List Member} {es : List Entry} :
    Say ms es ↔ ms = es.map .ofEntry ∧ (es.map Prod.fst).Nodup ∧
      ∀ e ∈ es, e.2.isReadable = true := by
  constructor
  · rintro ⟨hn, heach⟩
    obtain ⟨rfl, hr⟩ := forall₂_says_iff.1 heach
    rw [names_map_ofEntry] at hn
    exact ⟨rfl, hn, hr⟩
  · rintro ⟨rfl, hn, hr⟩
    refine ⟨?_, forall₂_says_iff.2 ⟨rfl, hr⟩⟩
    rwa [names_map_ofEntry]

/-! ### Tokens -/

theorem memberTokens_map_json (ms : List Member) :
    Json.memberTokens (ms.map Member.json) = ms.flatMap fun m => .comma :: m.tokens := by
  induction ms with
  | nil => rw [List.map_nil, Json.memberTokens, List.flatMap_nil]
  | cons m ms ih =>
    rw [List.map_cons, Member.json, Json.memberTokens, ih, List.flatMap_cons]
    simp only [Json.tokens, Json.memberTokens, List.append_nil, List.cons_append, List.nil_append]
    rfl

theorem tokens_document (ms : List Member) :
    (document ms).tokens = .openObject :: (joined ms ++ [.closeObject]) := by
  cases ms with
  | nil => rw [document, List.map_nil, Json.tokens]; rfl
  | cons m ms =>
    rw [document, List.map_cons, Member.json, Json.tokens, memberTokens_map_json]
    simp only [Json.tokens, Json.memberTokens, List.append_nil, List.cons_append, List.nil_append]
    rfl

theorem joined_concat {ms : List Member} (h : ms ≠ []) (m : Member) :
    joined (ms ++ [m]) = joined ms ++ .comma :: m.tokens := by
  cases ms with
  | nil => exact absurd rfl h
  | cons m' ms =>
    simp only [joined, List.cons_append, List.flatMap_append, List.flatMap_cons, List.flatMap_nil,
      List.append_nil, List.append_assoc]

theorem joined_isPrefix_append (ms more : List Member) : joined ms <+: joined (ms ++ more) := by
  cases ms with
  | nil => exact List.nil_prefix
  | cons m ms =>
    simp only [joined, List.cons_append, List.flatMap_append, ← List.append_assoc]
    exact List.prefix_append _ _

theorem length_joined_lt (ms : List Member) (m : Member) :
    (joined ms).length < (joined (ms ++ [m])).length := by
  by_cases hne : ms = []
  · subst hne
    exact Nat.zero_lt_succ _
  · rw [joined_concat hne, List.length_append]
    exact Nat.lt_add_of_pos_right (Nat.zero_lt_succ _)

theorem isDelimited_of_mem_joined {ms : List Member} :
    ∀ t ∈ joined ms, t.isDelimited = true := by
  have hmember : ∀ m : Member, ∀ t ∈ m.tokens, t.isDelimited = true := by
    intro m t ht
    simp only [Member.tokens, List.mem_cons, List.not_mem_nil, or_false] at ht
    rcases ht with rfl | rfl | rfl | rfl | rfl | rfl | rfl <;> rfl
  intro t ht
  cases ms with
  | nil => cases ht
  | cons m ms =>
    simp only [joined, List.mem_append, List.mem_flatMap, List.mem_cons] at ht
    rcases ht with ht | ⟨m', -, rfl | ht⟩
    · exact hmember m t ht
    · rfl
    · exact hmember m' t ht

theorem begins_iff {text : String} {ms : List Member} :
    Begins text ms ↔ .openObject :: joined ms <+: Json.scan .strict text.toList :=
  Json.begin_iff (List.forall_mem_cons.2 ⟨rfl, isDelimited_of_mem_joined⟩)

theorem isDelimited_of_mem_document {ms : List Member} :
    ∀ t ∈ (document ms).tokens, t.isDelimited = true := by
  rw [tokens_document]
  refine List.forall_mem_cons.2 ⟨rfl, fun t ht => ?_⟩
  rcases List.mem_append.1 ht with ht | ht
  · exact isDelimited_of_mem_joined t ht
  · rw [List.mem_singleton.1 ht]
    rfl

theorem document_isWritten_iff {text : String} {ms : List Member} :
    (document ms).IsWritten text ↔
      Json.scan .strict text.toList = .openObject :: (joined ms ++ [.closeObject]) := by
  rw [← tokens_document]
  exact Json.areWritten_iff isDelimited_of_mem_document

/-- A text that writes members begins with the first of them. -/
theorem begins_of_isWritten {text : String} {ms more : List Member}
    (h : (document (ms ++ more)).IsWritten text) : Begins text ms := by
  rw [begins_iff, document_isWritten_iff.1 h, List.cons_prefix_cons]
  exact ⟨rfl, (joined_isPrefix_append ms more).trans (List.prefix_append _ _)⟩

/-! ### Reading a member -/

theorem any_name_iff {seen : List Entry} {name : String} :
    seen.any (·.1 = name) = true ↔ name ∈ seen.map Prod.fst := by
  simp only [List.any_eq_true, decide_eq_true_eq, List.mem_map]

theorem readScalar_eq_ok_iff {m : Member} {s : Scalar} :
    readScalar m.name m.text m.type = .ok s ↔ m.Says (m.name, s) := by
  obtain ⟨name, type, text⟩ := m
  cases type with
  | text =>
    constructor
    · intro h
      cases h
      exact .text
    · rintro ⟨⟩
      rfl
  | number =>
    rw [readScalar]
    constructor
    · intro h
      split at h
      · next hn =>
        cases h
        exact .number hn
      · cases h
    · rintro ⟨⟩
      next hn => exact if_pos hn
  | binary =>
    rw [readScalar]
    constructor
    · intro h
      split at h
      · next bytes hbytes =>
        cases h
        cases Text.Base64.decode?_eq_some_iff.1 hbytes
        exact .binary
      · cases h
    · rintro ⟨⟩
      rw [Text.Base64.decode?_encode]

theorem readScalar_eq_error_iff {m : Member} {names : List String} (hnew : m.name ∉ names)
    {fault : CursorFault} :
    readScalar m.name m.text m.type = .error fault ↔ m.Offends names fault := by
  obtain ⟨name, type, text⟩ := m
  cases type with
  | text =>
    constructor
    · intro h
      cases h
    · rintro (hold | _ | _)
      exact absurd hold hnew
  | number =>
    rw [readScalar]
    constructor
    · intro h
      split at h
      · cases h
      · next hn =>
        cases h
        exact .notANumber hnew (Bool.not_eq_true _ ▸ hn)
    · rintro (hold | ⟨-, hn⟩ | _)
      · exact absurd hold hnew
      · rw [hn]
        rfl
  | binary =>
    rw [readScalar]
    constructor
    · intro h
      split at h
      · cases h
      · next hnone =>
        cases h
        exact .notBase64 hnew (Text.Base64.decode?_eq_none_iff.1 hnone)
    · rintro (hold | _ | ⟨-, hnone⟩)
      · exact absurd hold hnew
      · rw [Text.Base64.decode?_eq_none_iff.2 hnone]

/-- A member whose letter is a type is tested for its name and then for its text. -/
theorem readEntry_descriptor (seen : List Entry) (m : Member) :
    readEntry seen m.name m.type.descriptor m.text =
      if seen.any (·.1 = m.name) then .error (.duplicate m.name)
      else (readScalar m.name m.text m.type).map (m.name, ·) := by
  rw [readEntry, ScalarType.ofDescriptor?_eq_some_iff.2 rfl]

theorem readEntry_eq_ok_iff {seen : List Entry} {m : Member} {e : Entry} :
    readEntry seen m.name m.type.descriptor m.text = .ok e ↔
      m.name ∉ seen.map Prod.fst ∧ m.Says e := by
  rw [readEntry_descriptor, ← any_name_iff]
  split
  · next hold => simp [hold]
  · next hnew =>
    rw [Except.map_eq_ok_iff]
    constructor
    · rintro ⟨s, hs, rfl⟩
      exact ⟨hnew, readScalar_eq_ok_iff.1 hs⟩
    · rintro ⟨-, hm⟩
      refine ⟨e.2, readScalar_eq_ok_iff.2 ?_, ?_⟩ <;> rw [← hm.name_eq]
      exact hm

theorem readEntry_eq_error_iff {seen : List Entry} {m : Member} {fault : CursorFault} :
    readEntry seen m.name m.type.descriptor m.text = .error fault ↔
      m.Offends (seen.map Prod.fst) fault := by
  rw [readEntry_descriptor]
  split
  · next hold =>
    rw [any_name_iff] at hold
    constructor
    · intro h
      cases h
      exact .duplicate hold
    · rintro (_ | ⟨hnew, -⟩ | ⟨hnew, -⟩)
      · rfl
      · exact absurd hold hnew
      · exact absurd hold hnew
  · next hnew =>
    rw [any_name_iff] at hnew
    rw [Except.map_eq_error_iff, readScalar_eq_error_iff hnew]

/-- A member either says an entry or is wrong. -/
theorem Member.says_or_offends (m : Member) (names : List String) :
    m.name ∉ names ∧ (∃ e, m.Says e) ∨ ∃ fault, m.Offends names fault := by
  by_cases hold : m.name ∈ names
  · exact .inr ⟨_, .duplicate hold⟩
  rcases hs : readScalar m.name m.text m.type with fault | s
  · exact .inr ⟨fault, (readScalar_eq_error_iff hold).1 hs⟩
  · exact .inl ⟨hold, _, readScalar_eq_ok_iff.1 hs⟩

/-! ### Reading members -/

/-- How reading goes on behind a member. -/
def goOn (seen : List Entry) : List Json.Token → Except CursorFault (List Entry)
  | .comma :: rest => readMembers seen rest
  | [.closeObject] => .ok seen
  | _ => .error .malformed

theorem readMembers_member (seen : List Entry) (m : Member) (rest : List Json.Token) :
    readMembers seen (m.tokens ++ rest) =
      readEntry seen m.name m.type.descriptor m.text >>= fun e => goOn (seen ++ [e]) rest := by
  simp only [Member.tokens, List.cons_append, List.nil_append]
  rw [readMembers.eq_def]
  rfl

/-- Where no member is there, there is nothing to read. -/
theorem readMembers_of_no_member {ts : List Json.Token} (h : ∀ m : Member, ¬m.tokens <+: ts)
    (seen : List Entry) : readMembers seen ts = .error .malformed := by
  rw [readMembers.eq_def]
  split
  · next name tag text rest =>
    rcases htag : ScalarType.ofDescriptor? tag with _ | type
    · rw [readEntry, htag]
      rfl
    · refine absurd ⟨rest, ?_⟩ (h ⟨name, type, text⟩)
      rw [← ScalarType.ofDescriptor?_eq_some_iff.1 htag]
      rfl
  · rfl

theorem say_nil : Say [] [] := ⟨List.nodup_nil, .nil⟩

theorem Say.names_eq {ms : List Member} {es : List Entry} (h : Say ms es) :
    es.map Prod.fst = ms.map Member.name := by
  rw [(say_iff.1 h).1, names_map_ofEntry]

theorem Say.concat {ms : List Member} {es : List Entry} (h : Say ms es) {m : Member} {e : Entry}
    (hnew : m.name ∉ ms.map Member.name) (hm : m.Says e) : Say (ms ++ [m]) (es ++ [e]) := by
  refine ⟨?_, List.rel_append h.each (.cons hm .nil)⟩
  rw [List.map_append, List.map_singleton]
  exact h.nodup.append (List.nodup_singleton _) (by simpa using hnew)

/-- Members that are in order are read one by one. -/
theorem goOn_members {ms : List Member} {es seen : List Entry}
    (heach : List.Forall₂ Member.Says ms es)
    (hn : (seen.map Prod.fst ++ ms.map Member.name).Nodup) (rest : List Json.Token) :
    goOn seen ((ms.flatMap fun m => .comma :: m.tokens) ++ rest) = goOn (seen ++ es) rest := by
  induction heach generalizing seen with
  | nil => rw [List.flatMap_nil, List.nil_append, List.append_nil]
  | @cons m e ms es hm _ ih =>
    have hnew : m.name ∉ seen.map Prod.fst := by
      intro hold
      rw [List.map_cons, List.nodup_append] at hn
      exact hn.2.2 _ hold _ List.mem_cons_self rfl
    rw [List.flatMap_cons, List.cons_append, List.cons_append, List.append_assoc]
    change readMembers seen _ = _
    rw [readMembers_member, readEntry_eq_ok_iff.2 ⟨hnew, hm⟩]
    change goOn (seen ++ [e]) _ = _
    rw [ih, List.append_assoc, List.singleton_append]
    rw [List.map_append, List.map_singleton, hm.name_eq, List.append_assoc]
    exact hn

theorem ofTokens_member (m : Member) (rest : List Json.Token) :
    ofTokens (.openObject :: (m.tokens ++ rest)) =
      (readMembers [] (m.tokens ++ rest)).map Cursor.mk := rfl

theorem ofTokens_joined {ms : List Member} {es : List Entry} (h : Say ms es) (hne : ms ≠ [])
    (rest : List Json.Token) :
    ofTokens (.openObject :: (joined ms ++ rest)) = (goOn es rest).map Cursor.mk := by
  obtain ⟨hn, heach⟩ := h
  cases heach with
  | nil => exact absurd rfl hne
  | @cons m e ms es hm hms =>
    rw [joined, List.append_assoc, ofTokens_member, readMembers_member,
      readEntry_eq_ok_iff.2 ⟨List.not_mem_nil, hm⟩]
    change (goOn [e] _).map _ = _
    rw [goOn_members hms, List.singleton_append]
    rwa [List.map_singleton, hm.name_eq, List.singleton_append]

/-- Behind members that are in order a further one is tested against their names. -/
theorem ofTokens_joined_concat {ms : List Member} {es : List Entry} (h : Say ms es) (m : Member)
    (rest : List Json.Token) :
    ofTokens (.openObject :: (joined (ms ++ [m]) ++ rest)) =
      (readMembers es (m.tokens ++ rest)).map Cursor.mk := by
  by_cases hne : ms = []
  · subst hne
    cases h.each
    rw [List.nil_append, joined, List.flatMap_nil, List.append_nil, ofTokens_member]
  · rw [joined_concat hne, List.append_assoc, ofTokens_joined h hne]
    rfl

theorem ofTokens_of_no_member {ts : List Json.Token}
    (h : ∀ m : Member, ¬.openObject :: m.tokens <+: ts) (hend : ts ≠ [.openObject, .closeObject]) :
    ofTokens ts = .error .malformed := by
  unfold ofTokens
  split
  · exact absurd rfl hend
  · next ts _ =>
    rw [readMembers_of_no_member fun m hm => h m (List.cons_prefix_cons.2 ⟨rfl, hm⟩)]
    rfl
  · rfl

theorem goOn_of_no_member {rest : List Json.Token}
    (h : ∀ (m : Member) (more : List Json.Token), rest = .comma :: more → ¬m.tokens <+: more)
    (hend : rest ≠ [.closeObject]) (seen : List Entry) : goOn seen rest = .error .malformed := by
  unfold goOn
  split
  · next more => exact readMembers_of_no_member (fun m => h m more rfl) seen
  · exact absurd rfl hend
  · rfl

/-! ### Reading texts -/

theorem parse_of_writes {text : String} {c : Cursor} (h : Writes text c) :
    parse text = .ok c := by
  obtain ⟨ms, hdoc, hms⟩ := h
  rw [parse, document_isWritten_iff.1 hdoc]
  by_cases hne : ms = []
  · subst hne
    obtain ⟨es⟩ := c
    cases hms.each
    rfl
  · rw [ofTokens_joined hms hne]
    rfl

theorem parse_of_offence {text : String} {fault : CursorFault} (h : Offence text fault) :
    parse text = .error (.invalidCursor fault) := by
  suffices hts : ofTokens (Json.scan .strict text.toList) = .error fault by
    rw [parse, hts]
    rfl
  cases h with
  | @member ms es m _ hms hb hm =>
    obtain ⟨rest, hts⟩ := begins_iff.1 hb
    rw [← hms.names_eq] at hm
    rw [← hts, List.cons_append, ofTokens_joined_concat hms, readMembers_member,
      readEntry_eq_error_iff.2 hm]
    rfl
  | @malformed ms es hms hb hnext hend =>
    rw [document_isWritten_iff] at hend
    simp only [begins_iff] at hb hnext
    by_cases hne : ms = []
    · subst hne
      exact ofTokens_of_no_member (by simpa [joined] using hnext) hend
    · obtain ⟨rest, hts⟩ := hb hne
      rw [← hts] at hend hnext ⊢
      rw [List.cons_append, ofTokens_joined hms hne, goOn_of_no_member]
      · rfl
      · rintro m more rfl ⟨after, rfl⟩
        refine hnext m ⟨after, ?_⟩
        simp only [joined_concat hne, List.cons_append, List.append_assoc]
      · rintro rfl
        exact hend rfl

/-- Where members that are in order begin a text, it writes a cursor or has a first offence. -/
theorem writes_or_offence_of_begins {text : String} {ms : List Member} {es : List Entry}
    (hms : Say ms es) (hb : ms ≠ [] → Begins text ms) :
    (∃ c, Writes text c) ∨ ∃ fault, Offence text fault := by
  -- a further member takes tokens away, so the induction is on how many are behind the members
  induction hn : (Json.scan .strict text.toList).length - (joined ms).length using
    Nat.strongRecOn generalizing ms es with
  | _ n ih =>
    by_cases hnext : ∃ m, Begins text (ms ++ [m])
    · obtain ⟨m, hm⟩ := hnext
      rcases m.says_or_offends (ms.map Member.name) with ⟨hnew, e, he⟩ | ⟨fault, hfault⟩
      · refine ih _ ?_ (hms.concat hnew he) (fun _ => hm) rfl
        have hle := (begins_iff.1 hm).length_le
        have hlt := length_joined_lt ms m
        rw [List.length_cons] at hle
        omega
      · exact .inr ⟨fault, .member hms hm hfault⟩
    · by_cases hend : (document ms).IsWritten text
      · exact .inl ⟨⟨es⟩, ms, hend, hms⟩
      · exact .inr ⟨_, .malformed hms hb (not_exists.1 hnext) hend⟩

theorem writes_or_offence (text : String) :
    (∃ c, Writes text c) ∨ ∃ fault, Offence text fault :=
  writes_or_offence_of_begins say_nil fun h => absurd rfl h

theorem parse_eq_ok_iff {text : String} {c : Cursor} : parse text = .ok c ↔ Writes text c := by
  refine ⟨fun h => ?_, parse_of_writes⟩
  rcases writes_or_offence text with ⟨c', hc⟩ | ⟨fault, hfault⟩
  · rw [parse_of_writes hc] at h
    cases h
    exact hc
  · rw [parse_of_offence hfault] at h
    cases h

theorem parse_eq_error_iff {text : String} {e : InputError} :
    parse text = .error e ↔ ∃ fault, e = .invalidCursor fault ∧ Offence text fault := by
  constructor
  · intro h
    rcases writes_or_offence text with ⟨c, hc⟩ | ⟨fault, hfault⟩
    · rw [parse_of_writes hc] at h
      cases h
    · rw [parse_of_offence hfault] at h
      cases h
      exact ⟨fault, rfl, hfault⟩
  · rintro ⟨fault, rfl, hfault⟩
    exact parse_of_offence hfault

/-- The reader takes exactly the texts of cursors, for the cursors that they write, and of any other
text it tells the first offence. -/
theorem parses_exactly (text : String) :
    (∀ c, parse text = .ok c ↔ Writes text c) ∧
      ∀ e, parse text = .error e ↔ ∃ fault, e = .invalidCursor fault ∧ Offence text fault :=
  ⟨fun _ => parse_eq_ok_iff, fun _ => parse_eq_error_iff⟩

/-- A name that was there before is told, although its text is no number and the object has no end. -/
example : parse "\x7b\"a\":\x7b\"S\":\"x\"\x7d,\"\\u0061\":\x7b\"N\":\"?\"\x7d" =
    .error (.invalidCursor (.duplicate "a")) := by
  decide +kernel

/-- A value that is none is told, although the name was there before. -/
example : parse "\x7b\"a\":\x7b\"S\":\"x\"\x7d,\"a\":\x7b\"S\":0\x7d\x7d" =
    .error (.invalidCursor .malformed) := by
  decide +kernel

end Tablescope.Cursor
