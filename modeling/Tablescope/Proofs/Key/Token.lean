import Tablescope.Key.Token
import Tablescope.Proofs.Attribute.Scalar
import Tablescope.Proofs.Key.Primary
import Tablescope.Proofs.Text.Percent

/-!
# Tokens name keys

The token of a key splits into one component for each entry, because no coded text has a comma in
it. What a token is read as always fits the schema and is readable. A readable key is read back from
its token, and two keys of one schema have different tokens even where they cannot be read back.
-/

namespace Tablescope.PrimaryKey

/-! ### Components -/

/-- The parts of a token between its commas. -/
def components (token : String) : List String := (token.toList.splitOn ',').map String.ofList

theorem components_token (k : PrimaryKey) :
    components k.token = k.entries.map fun e => Text.Percent.encode e.2.render := by
  have hcomma : ∀ l ∈ (k.entries.map fun e => Text.Percent.encode e.2.render).map String.toList,
      ',' ∉ l := by
    intro l hl
    simp only [List.map_map, List.mem_map, Function.comp_apply] at hl
    obtain ⟨e, -, rfl⟩ := hl
    exact Text.Percent.comma_not_mem_encode _
  rw [components, token, String.toList_intercalate,
    show (",".toList : List Char) = [','] from rfl, List.splitOn_intercalate ',' hcomma]
  · simp
  · simp [entries]

/-! ### Reading -/

theorem componentEntry_eq_ok_iff {a : Attribute} {component : String} {e : Entry} :
    componentEntry a component = .ok e ↔
      e.attribute = a ∧ ∃ text, Text.Percent.decode component = .ok text ∧
        e.2.type.coerce? text = some e.2 := by
  obtain ⟨name, s⟩ := e
  obtain ⟨n, t⟩ := a
  simp only [componentEntry, Entry.attribute, Attribute.mk.injEq]
  cases Text.Percent.decode component with
  | error fault => simp
  | ok text =>
    simp only [Except.bind_eq_ok_iff, ScalarType.coerce_eq_ok_iff, Except.ok.injEq,
      exists_eq_left']
    constructor
    · rintro ⟨s', hs, h⟩
      cases h
      have ht := ScalarType.type_of_coerce? hs
      exact ⟨⟨rfl, ht⟩, ht ▸ hs⟩
    · rintro ⟨⟨rfl, rfl⟩, hs⟩
      exact ⟨s, hs, rfl⟩

/-- Whether a component of a token writes the value of an entry. -/
def Writes (component : String) (e : Entry) : Prop :=
  ∃ text, Text.Percent.decode component = .ok text ∧ e.2.type.coerce? text = some e.2

theorem ofToken_eq_ok_iff {schema : KeySchema} {t : String} {k : PrimaryKey} :
    ofToken schema t = .ok k ↔ k.Fits schema ∧ List.Forall₂ Writes (components t) k.entries := by
  obtain ⟨h, r⟩ := schema
  obtain ⟨kh, kr⟩ := k
  unfold ofToken Fits
  simp only [KeySchema.attributes, entries]
  rw [show (t.toList.splitOn ',').map String.ofList = components t from rfl]
  constructor
  · intro hk
    split at hk
    · next c hr hc =>
      obtain ⟨e, he, hk⟩ := Except.bind_eq_ok_iff.1 hk
      cases hk
      obtain ⟨ha, hw⟩ := componentEntry_eq_ok_iff.1 he
      rw [hc]
      exact ⟨by simp_all, .cons hw .nil⟩
    · next a c d hr hc =>
      obtain ⟨e, he, hk⟩ := Except.bind_eq_ok_iff.1 hk
      obtain ⟨f, hf, hk⟩ := Except.bind_eq_ok_iff.1 hk
      cases hk
      obtain ⟨ha, hw⟩ := componentEntry_eq_ok_iff.1 he
      obtain ⟨hb, hv⟩ := componentEntry_eq_ok_iff.1 hf
      rw [hc]
      exact ⟨by simp_all, .cons hw (.cons hv .nil)⟩
    · cases hk
  · rintro ⟨hf, hw⟩
    cases kr with
    | none =>
      obtain ⟨c, cs, hc, hcs, hcomp⟩ := List.forall₂_cons_right_iff.1 hw
      cases List.forall₂_nil_right_iff.1 hcs
      obtain ⟨rfl, hr⟩ : kh.attribute = h ∧ r = none := by
        cases r <;> simp_all
      rw [hcomp, hr]
      exact Except.bind_eq_ok_iff.2 ⟨kh, componentEntry_eq_ok_iff.2 ⟨rfl, hc⟩, rfl⟩
    | some f =>
      obtain ⟨c, cs, hc, hcs, hcomp⟩ := List.forall₂_cons_right_iff.1 hw
      obtain ⟨d, ds, hd, hds, rfl⟩ := List.forall₂_cons_right_iff.1 hcs
      cases List.forall₂_nil_right_iff.1 hds
      obtain ⟨rfl, hr⟩ : kh.attribute = h ∧ r = some f.attribute := by
        cases r <;> simp_all
      rw [hcomp, hr]
      exact Except.bind_eq_ok_iff.2 ⟨kh, componentEntry_eq_ok_iff.2 ⟨rfl, hc⟩,
        Except.bind_eq_ok_iff.2 ⟨f, componentEntry_eq_ok_iff.2 ⟨rfl, hd⟩, rfl⟩⟩

/-- Whether all values of a key can be read back from their texts. -/
def isReadable (k : PrimaryKey) : Bool := k.entries.all (·.2.isReadable)

theorem fits_of_ofToken {schema : KeySchema} {t : String} {k : PrimaryKey}
    (h : ofToken schema t = .ok k) : k.Fits schema :=
  (ofToken_eq_ok_iff.1 h).1

theorem isReadable_of_ofToken {schema : KeySchema} {t : String} {k : PrimaryKey}
    (h : ofToken schema t = .ok k) : k.isReadable = true := by
  have hwrites := (ofToken_eq_ok_iff.1 h).2
  rw [isReadable, List.all_eq_true]
  generalize components t = components, k.entries = es at hwrites ⊢
  induction hwrites with
  | nil => simp
  | cons hw _ ih =>
    obtain ⟨text, -, hcoerce⟩ := hw
    exact List.forall_mem_cons.2 ⟨ScalarType.isReadable_of_coerce? hcoerce, ih⟩

/-! ### Reading back -/

theorem writes_encode {e : Entry} (h : e.2.isReadable = true) :
    Writes (Text.Percent.encode e.2.render) e :=
  ⟨e.2.render, Text.Percent.decode_encode _, ScalarType.coerce?_render h⟩

theorem ofToken_token {schema : KeySchema} {k : PrimaryKey} (hf : k.Fits schema)
    (hr : k.isReadable = true) : ofToken schema k.token = .ok k := by
  rw [ofToken_eq_ok_iff, components_token, List.forall₂_map_left_iff, List.forall₂_same]
  exact ⟨hf, fun e he => writes_encode (List.all_eq_true.1 hr e he)⟩

theorem isReadable_iff {k : PrimaryKey} :
    k.isReadable = true ↔
      ∀ e ∈ k.entries, ∀ numeral, e.2 = .number numeral → isNumber numeral = true := by
  rw [isReadable, List.all_eq_true]
  exact forall₂_congr fun e _ => Scalar.isReadable_iff

/-- A key that was made of values or taken from an item is read back from its token exactly if its
numbers are numbers. The numbers of a key that was read are, so reading a token, writing the key and
reading again is reading once, however the token is written. -/
theorem ofToken_token_iff (schema : KeySchema) :
    (∀ k, (∃ hash range, ofValues schema hash range = .ok k) ∨
        (∃ item, ofItem schema item = .ok k) →
      (ofToken schema k.token = .ok k ↔
        ∀ e ∈ k.entries, ∀ numeral, e.2 = .number numeral → isNumber numeral = true)) ∧
      ∀ t k, ofToken schema t = .ok k →
        (∀ e ∈ k.entries, ∀ numeral, e.2 = .number numeral → isNumber numeral = true) ∧
          ofToken schema k.token = .ok k := by
  refine ⟨fun k hk => ?_, fun t k h => ?_⟩
  · have hf : k.Fits schema := by
      rcases hk with ⟨hash, range, h⟩ | ⟨item, h⟩
      · exact fits_of_ofValues h
      · exact (ofItem_eq_ok_iff.1 h).1
    rw [← isReadable_iff]
    exact ⟨isReadable_of_ofToken, ofToken_token hf⟩
  · have hr := isReadable_of_ofToken h
    exact ⟨isReadable_iff.1 hr, ofToken_token (fits_of_ofToken h) hr⟩

/-- The key of a measurement: a name and a number. -/
def measurementKey : KeySchema := ⟨⟨"name", .text⟩, some ⟨"at", .number⟩⟩

theorem ofToken_token_iff_of_measurement :
    let k : PrimaryKey := ⟨("name", .text "a,b!ü%"), some ("at", .number "-1.50")⟩
    let blank : PrimaryKey := ⟨("name", .text ""), some ("at", .number " 7")⟩
    ofToken measurementKey "a%2cb!%c3%BC%,%20-1.50 " = .ok k ∧ k.token ≠ "a%2cb!%c3%BC%,%20-1.50 " ∧
      ofToken measurementKey k.token = .ok k ∧
      ofValues measurementKey (.scalar (.text "")) (some (.scalar (.number " 7"))) = .ok blank ∧
      ofToken measurementKey blank.token ≠ .ok blank := by
  intro k blank
  have hread : ofToken measurementKey "a%2cb!%c3%BC%,%20-1.50 " = .ok k := by decide +kernel
  have hmade : ofValues measurementKey (.scalar (.text "")) (some (.scalar (.number " 7"))) =
      .ok blank := rfl
  refine ⟨hread, by decide +kernel, ((ofToken_token_iff measurementKey).2 _ k hread).2, hmade, ?_⟩
  intro h
  have hnumbers := ((ofToken_token_iff measurementKey).1 blank (.inl ⟨_, _, hmade⟩)).1 h
  exact absurd (hnumbers ("at", .number " 7") (by decide) " 7" rfl) (by decide)

/-! ### Telling keys apart -/

/-- Keys of one schema that have one token are the same. -/
theorem eq_of_token_eq {schema : KeySchema} {k l : PrimaryKey} (hk : k.Fits schema)
    (hl : l.Fits schema) (h : k.token = l.token) : k = l := by
  have htexts : k.entries.map (fun e => e.2.render) = l.entries.map fun e => e.2.render := by
    have hc := congrArg components h
    rw [components_token, components_token] at hc
    refine (List.map_injective_iff.2 fun s t => Text.Percent.encode_injective) ?_
    rwa [List.map_map, List.map_map]
  have hattrs : k.entries.map Entry.attribute = l.entries.map Entry.attribute := hk.trans hl.symm
  apply entries_injective
  clear h hk hl
  generalize k.entries = es at *
  generalize l.entries = fs at *
  -- entry by entry: the names and types are equal, and with them the texts decide the values
  induction es generalizing fs with
  | nil => simpa using hattrs.symm
  | cons e es ih =>
    cases fs with
    | nil => simp at hattrs
    | cons f fs =>
      simp only [List.map_cons, List.cons.injEq, Entry.attribute, Attribute.mk.injEq] at hattrs
      simp only [List.map_cons, List.cons.injEq] at htexts
      obtain ⟨⟨hn, ht⟩, hs⟩ := hattrs
      rw [Prod.ext hn (Scalar.eq_of_render_eq ht htexts.1), ih fs htexts.2 hs]

/-- Whether a key is made for a schema: of values, from an item or from a token. -/
inductive IsMade (schema : KeySchema) (k : PrimaryKey) : Prop where
  | ofValues {hash : Value} {range : Option Value} (h : ofValues schema hash range = .ok k)
  | ofItem {item : Item} (h : ofItem schema item = .ok k)
  | ofToken {t : String} (h : ofToken schema t = .ok k)

theorem IsMade.fits {schema : KeySchema} {k : PrimaryKey} (h : k.IsMade schema) :
    k.Fits schema := by
  cases h with
  | ofValues h => exact fits_of_ofValues h
  | ofItem h => exact (ofItem_eq_ok_iff.1 h).1
  | ofToken h => exact fits_of_ofToken h

theorem Fits.length_entries {schema : KeySchema} {k : PrimaryKey} (h : k.Fits schema) :
    k.entries.length = schema.arity := by
  rw [KeySchema.arity, ← h, List.length_map]

/-- Whether a component of a token spells the value of an entry: it is safe in a URL, has no comma
in it and stands for the text of the value, whether or not that can be read back. -/
structure Spells (e : Entry) (component : String) : Prop where
  urlSafe : Text.Percent.UrlSafe component.toList
  noComma : ',' ∉ component.toList
  decode : Text.Percent.decode component = .ok e.2.render

theorem spells_encode (e : Entry) : Spells e (Text.Percent.encode e.2.render) where
  urlSafe := Text.Percent.urlSafe_encode _
  noComma := Text.Percent.comma_not_mem_encode _
  decode := Text.Percent.decode_encode _

/-- Keys that are made for one schema have different tokens if they differ, whatever their numbers
are. A token splits at its commas into one component for each attribute of the key. -/
theorem tells_keys_apart (schema : KeySchema) :
    (∀ k l : PrimaryKey, k.IsMade schema → l.IsMade schema → k.token = l.token → k = l) ∧
      ∀ k : PrimaryKey, k.IsMade schema →
        k.entries.map Entry.attribute = schema.attributes ∧
          (components k.token).length = schema.arity ∧
          ",".intercalate (components k.token) = k.token ∧
          List.Forall₂ Spells k.entries (components k.token) := by
  refine ⟨fun k l hk hl => eq_of_token_eq hk.fits hl.fits, fun k hk => ?_⟩
  rw [components_token, List.length_map]
  refine ⟨hk.fits, hk.fits.length_entries, rfl, ?_⟩
  rw [List.forall₂_map_right_iff, List.forall₂_same]
  exact fun e _ => spells_encode e

theorem tells_keys_apart_of_measurement :
    let k : PrimaryKey := ⟨("name", .text "a,%2C"), some ("at", .number " 7,")⟩
    let item : Item := .ofList [("more", .null true), ("at", .scalar (.number " 7,")),
      ("name", .scalar (.text "a,%2C"))]
    ofValues measurementKey (.scalar (.text "a,%2C")) (some (.scalar (.number " 7,"))) = .ok k ∧
      (∃ l, ofItem measurementKey item = .ok l ∧ l.token = k.token ∧ l = k) ∧
      components k.token = ["a%2C%252C", "%207%2C"] ∧
      List.Forall₂ Spells k.entries ["a%2C%252C", "%207%2C"] := by
  intro k item
  have hk : ofValues measurementKey (.scalar (.text "a,%2C")) (some (.scalar (.number " 7,"))) =
      .ok k := rfl
  have hitem : ofItem measurementKey item = .ok k := by decide +kernel
  have hcomponents : components k.token = ["a%2C%252C", "%207%2C"] := by decide +kernel
  have hspells := ((tells_keys_apart measurementKey).2 k (.ofValues hk)).2.2.2
  exact ⟨hk, ⟨k, hitem, rfl, (tells_keys_apart measurementKey).1 k k (.ofItem hitem)
    (.ofValues hk) rfl⟩, hcomponents, hcomponents ▸ hspells⟩

end Tablescope.PrimaryKey
