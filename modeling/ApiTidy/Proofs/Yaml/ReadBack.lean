import Mathlib
import ApiTidy.Document.Text
import ApiTidy.Pipeline
import ApiTidy.Proofs.Yaml.RoundTrip

/-!
Documents that are read back from their YAML text, in that format or in the one that the text looks
like.
-/
namespace ApiTidy

theorem Format.decode_encode_yaml {node : Node} (hwell : node.WellFormed)
    (hnumbers : node.Integral) (hdepth : node.depth ≤ Yaml.maxDepth) :
    Format.yaml.decode (Format.yaml.encode node) = .ok node := by
  simp only [decode, encode, Yaml.parse_render hwell hnumbers hdepth]

/-- A text looks like JSON if what follows its white space does. -/
theorem Format.sniff_eq_json {text : List Char} : sniff (String.ofList text) = .json ↔
    ∃ c ∈ (Text.trimStart text).head?, c = '\x7b' ∨ c = '[' := by
  rw [sniff, String.toList_ofList]
  split
  next hbrace => simp [hbrace]
  next hbracket => simp [hbracket]
  next hbrace hbracket =>
    cases htrim : Text.trimStart text with
    | nil => simp
    | cons c rest =>
      have hc : c ≠ '\x7b' ∧ c ≠ '[' :=
        ⟨fun h => hbrace rest (h ▸ htrim), fun h => hbracket rest (h ▸ htrim)⟩
      simp [hc]

theorem Format.sniff_cons_eq_json {c : Char} (hblank : Text.isBlank c = false) (rest : List Char) :
    sniff (String.ofList (c :: rest)) = .json ↔ c = '\x7b' ∨ c = '[' := by
  rw [sniff_eq_json, Text.trimStart, List.dropWhile_cons, hblank]
  simp

/-- A colon after a text changes nothing about what it looks like. -/
theorem Format.sniff_colon_eq_json (text rest : List Char) :
    sniff (String.ofList (text ++ ':' :: rest)) = .json ↔ sniff (String.ofList text) = .json := by
  have hhead : (Text.trimStart (text ++ ':' :: rest)).head? =
      (Text.trimStart text).head?.or (some ':') := by
    induction text with
    | nil => rfl
    | cons c others ih =>
      unfold Text.trimStart at ih ⊢
      rw [List.cons_append, List.dropWhile_cons, List.dropWhile_cons]
      cases Text.isBlank c with
      | true => exact ih
      | false => rfl
  rw [sniff_eq_json, sniff_eq_json, hhead]
  cases (Text.trimStart text).head? <;> simp

/-- White space that is none in JSON starts no token. -/
theorem Json.parse_of_isBlank {c : Char} (hblank : Text.isBlank c = true)
    (hspace : isSpace c = false) (rest : List Char) :
    parse (String.ofList (c :: rest)) = .error (.badCharacter c) := by
  have hne : ∀ d, Text.isBlank d = false → c ≠ d := by
    rintro d hd rfl
    rw [hblank] at hd
    cases hd
  have hdigit : Text.isDigit c = false := by
    rw [Bool.eq_false_iff]
    intro h
    simp only [Text.isBlank, Text.isDigit, Bool.or_eq_true, Bool.and_eq_true,
      decide_eq_true_eq] at hblank h
    omega
  have htoken : token? (c :: rest) = .error (.badCharacter c) := by
    obtain ⟨hn, ht, hf⟩ : c ≠ 'n' ∧ c ≠ 't' ∧ c ≠ 'f' :=
      ⟨hne 'n' (by decide), hne 't' (by decide), hne 'f' (by decide)⟩
    rw [token?]
    · simp [hdigit, hn, ht, hf, hne '-' (by decide)]
    all_goals first
      | exact hne _ (by decide)
      | exact fun _ h => absurd h (by assumption)
  have htokens : tokens (c :: rest) = .error (.badCharacter c) := by
    rw [tokens, List.length_cons, tokensFrom, hspace, htoken]
    rfl
  rw [parse, String.toList_ofList, htokens]
  rfl

/-- Whether a key is written as it is. -/
def Yaml.isBareKey (key : String) : Bool :=
  isSimpleKey key && ScalarStyle.ofText key.toList = .plain

section FirstKey
variable {key : String}

theorem Yaml.fitsPlain_of_isBareKey (h : isBareKey key = true) :
    fitsPlain key.toList = true ∧ key.toList ≠ [] := by
  simp only [isBareKey, Bool.and_eq_true, decide_eq_true_eq] at h
  have hholds := ScalarStyle.ofText_holds key.toList
  rwa [h.2] at hholds

theorem Yaml.render_entry (key : String) (value : Node) (rest : Entries Node) :
    ∃ more, render (.mapping ((key, value) :: rest)) =
      String.ofList (entryStart 0 key value ++ more) :=
  ⟨_, congrArg String.ofList (List.append_assoc _ _ _)⟩

theorem Yaml.entryStart_of_isBareKey (h : isBareKey key = true) (value : Node) :
    entryStart 0 key value = key.toList ++ ':' :: (valueStart 0 value).1 := by
  simp only [isBareKey, Bool.and_eq_true, decide_eq_true_eq] at h
  rw [entryStart, if_pos h.1, h.2, styled]

/-- What is written of any other key starts with a mark, which is none of a flow collection. -/
theorem Yaml.entryStart_of_not_isBareKey (h : isBareKey key = false) (value : Node) :
    ∃ c more, entryStart 0 key value = c :: more ∧ Text.isBlank c = false ∧ c ≠ '\x7b' ∧
      c ≠ '[' := by
  cases hsimple : isSimpleKey key with
  | false => exact ⟨'?', _, by rw [entryStart, hsimple]; rfl, by decide⟩
  | true =>
    have hstyle : ScalarStyle.ofText key.toList ≠ .plain := by simpa [isBareKey, hsimple] using h
    rw [entryStart, if_pos hsimple]
    rcases ScalarStyle.ofText_cases key.toList with
      ⟨hplain, -⟩ | ⟨hquoted, -⟩ | hquoted | ⟨hblock, -⟩
    · exact absurd hplain hstyle
    · exact hquoted ▸ ⟨'\'', _, rfl, by decide⟩
    · exact hquoted ▸ ⟨'"', _, rfl, by decide⟩
    · exact hblock ▸ ⟨'|', _, rfl, by decide⟩

/-- The text of a mapping looks like its first key if that is written as it is, and else like
YAML. -/
theorem Format.sniff_render_entry (key : String) (value : Node) (rest : Entries Node) :
    sniff (Yaml.render (.mapping ((key, value) :: rest))) = .json ↔
      sniff key = .json ∧ Yaml.isBareKey key = true := by
  obtain ⟨more, htext⟩ := Yaml.render_entry key value rest
  rw [htext]
  cases hbare : Yaml.isBareKey key with
  | true =>
    rw [Yaml.entryStart_of_isBareKey hbare, List.append_assoc, List.cons_append,
      sniff_colon_eq_json, String.ofList_toList]
    simp
  | false =>
    obtain ⟨c, others, hstart, hblank, hopen⟩ := Yaml.entryStart_of_not_isBareKey hbare value
    rw [hstart, List.cons_append, sniff_cons_eq_json hblank]
    simp [hopen]

/-- A key that is written as it is and looks like JSON starts with white space that is none there. -/
theorem Yaml.exists_isBlank_of_isBareKey (h : isBareKey key = true)
    (hsniff : Format.sniff key = .json) :
    ∃ c others, key.toList = c :: others ∧ Text.isBlank c = true ∧ Json.isSpace c = false := by
  obtain ⟨hfits, hne⟩ := fitsPlain_of_isBareKey h
  obtain ⟨c, others, hcons⟩ := List.exists_cons_of_ne_nil hne
  rw [hcons] at hfits
  refine ⟨c, others, hcons, ?_, ?_⟩
  · cases hblank : Text.isBlank c with
    | true => rfl
    | false =>
      have hmark := (fitsPlain_iff.1 hfits).2.2.2.1
      rw [← String.ofList_toList (s := key), hcons, Format.sniff_cons_eq_json hblank] at hsniff
      rcases hsniff with rfl | rfl
      · simp [startsWithMark] at hmark
      · simp [startsWithMark] at hmark
  · have hfirst := first_of_fitsPlain hfits
    simp only [isBlank, isBreak, Bool.or_eq_false_iff, decide_eq_false_iff_not] at hfirst
    simp [Json.isSpace, hfirst]

end FirstKey

namespace Document

/-- Whether a document, written as YAML, is taken for JSON that it is not: its first key is written
as it is and, after white space, opens with a brace or a bracket. -/
def misleads (doc : Document) : Bool :=
  match doc.root with
  | .mapping ((key, _) :: _) => Format.sniff key = .json && Yaml.isBareKey key
  | _ => false

theorem sniff_render_yaml (key : String) (value : Node) (rest : Entries Node) :
    Format.sniff (render ⟨.mapping ((key, value) :: rest)⟩ .yaml) = .json ↔
      misleads ⟨.mapping ((key, value) :: rest)⟩ = true := by
  have hentry := Format.sniff_render_entry key value rest
  simpa [misleads, render, Format.encode] using hentry

/-- What a misleading document is taken for is refused. -/
theorem parse_json_of_misleads {doc : Document} (h : doc.misleads = true) :
    ∃ fault, parse (doc.render .yaml) .json = .error (.parse fault) := by
  obtain ⟨root⟩ := doc
  cases root with
  | scalar value => cases h
  | sequence items => cases h
  | mapping entries =>
    cases entries with
    | nil => cases h
    | cons entry rest =>
      obtain ⟨key, value⟩ := entry
      simp only [misleads, Bool.and_eq_true, decide_eq_true_eq] at h
      obtain ⟨c, others, hcons, hblank, hspace⟩ := Yaml.exists_isBlank_of_isBareKey h.2 h.1
      obtain ⟨more, htext⟩ := Yaml.render_entry key value rest
      rw [Yaml.entryStart_of_isBareKey h.2, hcons, List.cons_append, List.cons_append] at htext
      rw [parse, parseFrom, render, Format.encode, htext, Format.decode,
        Json.parse_of_isBlank hblank hspace]
      exact ⟨_, rfl⟩

theorem parse_yaml_of_integral {doc : Document} (hwell : doc.root.WellFormed)
    (hnumbers : doc.root.Integral) (hdepth : doc.root.depth ≤ Yaml.maxDepth) :
    parse (doc.render .yaml) .yaml = ofNode doc.root := by
  rw [parse, parseFrom, render, Format.decode_encode_yaml hwell hnumbers hdepth]

/-- The YAML text of a document without floats, of at most 128 nested collections, is read back as
the same document, keys in the same order. It looks like YAML, or like JSON if the document is empty,
and is read back as what it looks like, except where the first key misleads, and JSON is refused.
Where an edit has put something else than a mapping at the root, the text is refused for its root. -/
theorem parse_render_yaml {doc : Document} (hwell : doc.root.WellFormed)
    (hnumbers : doc.root.Integral) (hdepth : doc.root.depth ≤ 128) :
    (doc.root.isMapping = true → parse (doc.render .yaml) .yaml = .ok doc ∧
        (doc.misleads = false →
          parse (doc.render .yaml) (Format.sniff (doc.render .yaml)) = .ok doc ∧
          (Format.sniff (doc.render .yaml) = .json ↔ doc.root = .mapping [])) ∧
        (doc.misleads = true → Format.sniff (doc.render .yaml) = .json ∧
          ∃ fault, parse (doc.render .yaml) .json = .error (.parse fault))) ∧
      (doc.root.isMapping = false → parse (doc.render .yaml) .yaml =
        .error (.document (.rootShape doc.root.shape))) := by
  have hparse := parse_yaml_of_integral hwell hnumbers hdepth
  have hmisled := @parse_json_of_misleads doc
  rw [hparse]
  obtain ⟨root⟩ := doc
  cases root with
  | scalar value => exact ⟨fun h => (nomatch h), fun _ => rfl⟩
  | sequence items => exact ⟨fun h => (nomatch h), fun _ => rfl⟩
  | mapping entries =>
    refine ⟨fun _ => ⟨rfl, ?_⟩, fun h => nomatch h⟩
    cases entries with
    | nil => exact ⟨fun _ => ⟨rfl, fun _ => rfl, fun _ => rfl⟩, fun h => nomatch h⟩
    | cons entry rest =>
      have hsniff := sniff_render_yaml entry.1 entry.2 rest
      refine ⟨fun hclear => ?_, fun hmisleads => ⟨hsniff.2 hmisleads, hmisled hmisleads⟩⟩
      cases hformat : Format.sniff (render ⟨.mapping (entry :: rest)⟩ .yaml) with
      | json => simp [hsniff.1 hformat] at hclear
      | yaml => exact ⟨hparse, fun h => (nomatch h), fun h => nomatch h⟩

end Document

/-- Keys and texts that need marks, quotes, escapes or blocks, nested in either kind of collection,
and the least and the greatest integer. -/
def contorted : Document :=
  ⟨.mapping [
    ("two\nlines", .sequence [
      .sequence [.ofString "  led\n\nby \x7b\n\n", .mapping [], .sequence []],
      .mapping [("", .ofString "'\u0085\u2028\t\\"), ("a: #b", .null)]]),
    ("[ ", .mapping [("0x1F", .scalar (.number (.integer (-0x8000000000000000)))),
      ("~", .ofString "0x1F"), ("😀", .scalar (.number (.integer 0xFFFFFFFFFFFFFFFF)))])]⟩

theorem Document.parse_render_yaml_contorted :
    contorted.root.WellFormed ∧ contorted.root.Integral ∧ contorted.root.depth ≤ 128 ∧
      Document.parse (contorted.render .yaml) .yaml = .ok contorted ∧
      Document.parse (contorted.render .yaml) (Format.sniff (contorted.render .yaml)) =
        .ok contorted ∧
      Format.sniff (contorted.render .yaml) ≠ .json := by
  have hwell : contorted.root.WellFormed := by
    simp [contorted, Node.WellFormed, Node.WellFormedEntries, Node.WellFormedItems,
      Entries.Distinct, Entries.keys, Node.null, Node.ofString]
  have hnumbers : contorted.root.Integral := by
    simp [contorted, Scalar.Integral, Node.null, Node.ofString, Number.fits, Text.wordLimit]
  have hdepth : contorted.root.depth ≤ 128 := by decide
  obtain ⟨hread, hclear, -⟩ := (Document.parse_render_yaml hwell hnumbers hdepth).1 rfl
  obtain ⟨hlooks, hsniff⟩ := hclear (by decide)
  exact ⟨hwell, hnumbers, hdepth, hread, hlooks, fun h => absurd (hsniff.1 h) (by simp [contorted])⟩

/-- A fix at the empty address replaces the root, and a key may open like JSON after white space that
is none there. -/
theorem not_all_yaml_texts_read_back :
    (¬ ∀ (pipeline : Pipeline) (start doc : Document) (report : RunReport),
      start.root.isMapping = true → pipeline.run start = .ok report doc →
      doc.root.WellFormed → doc.root.Integral → doc.root.depth ≤ 128 →
      Document.parse (doc.render .yaml) .yaml = .ok doc) ∧
    ¬ ∀ doc : Document, doc.root.isMapping = true →
      doc.root.WellFormed → doc.root.Integral → doc.root.depth ≤ 128 →
      Document.parse (doc.render .yaml) (Format.sniff (doc.render .yaml)) = .ok doc := by
  constructor
  · intro hall
    let uproot : Pipeline := ⟨[.applyFixes [⟨none, .set "" .null⟩]]⟩
    have hrun : ∃ report, uproot.run ⟨.mapping []⟩ = .ok report ⟨.null⟩ := ⟨_, rfl⟩
    obtain ⟨report, hreport⟩ := hrun
    have hread := hall uproot _ _ report rfl hreport trivial (.scalar trivial) (by decide)
    have hrefused : Document.parse (Document.render ⟨.null⟩ .yaml) .yaml = Document.ofNode .null :=
      Document.parse_yaml_of_integral trivial (.scalar trivial) (by decide)
    rw [hrefused] at hread
    cases hread
  · intro hall
    have hmisleads : Document.misleads ⟨.mapping [("\u00a0\x7b", .null)]⟩ = true := by cbv
    have hwell : Node.WellFormed (.mapping [("\u00a0\x7b", .null)]) := by
      simp [Node.WellFormed, Node.WellFormedEntries, Entries.Distinct, Entries.keys, Node.null]
    have hnumbers : Node.Integral (.mapping [("\u00a0\x7b", .null)]) := by
      simp [Node.null, Scalar.Integral]
    have hread := hall ⟨.mapping [("\u00a0\x7b", .null)]⟩ rfl hwell hnumbers (by decide)
    obtain ⟨fault, hrefused⟩ := Document.parse_json_of_misleads hmisleads
    rw [(Document.sniff_render_yaml _ _ _).2 hmisleads, hrefused] at hread
    cases hread

end ApiTidy
