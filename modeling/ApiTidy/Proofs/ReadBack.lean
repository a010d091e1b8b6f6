import ApiTidy.Document.Text
import ApiTidy.Pipeline
import ApiTidy.Proofs.Json.Mapping
import ApiTidy.Proofs.Json.RoundTrip

/-!
Documents that are read back from their text. The JSON text of a document without floats gives its
tree again, so it is the same document unless its root is no mapping, which no text may have.
-/
namespace ApiTidy

theorem Format.decode_encode_json {node : Node} (hwell : node.WellFormed)
    (hnumbers : node.Integral) (hdepth : node.depth ≤ Json.maxDepth) :
    Format.json.decode (Format.json.encode node) = .ok node := by
  simp only [decode, encode, Json.parse_render hwell hnumbers hdepth]

theorem Format.sniff_render_mapping (entries : Entries Node) :
    sniff (Json.render (.mapping entries)) = .json := by
  obtain ⟨rest, hpretty⟩ := Json.pretty_mapping 0 entries
  have htrim : Text.trimStart (Json.render (.mapping entries)).toList = '{' :: (rest ++ ['\n']) := by
    rw [Json.render, hpretty, String.toList_ofList]
    rfl
  rw [sniff, htrim]
  rfl

/-- The JSON text of a document without floats, of at most 127 nested containers, is read back as
the same document, keys in the same order, and looks like JSON. Where an edit has put something else
than a mapping at the root, the text is refused for its root. -/
theorem Document.parse_render_json {doc : Document} (hwell : doc.root.WellFormed)
    (hnumbers : doc.root.Integral) (hdepth : doc.root.depth ≤ 127) :
    (doc.root.isMapping = true → Document.parse (doc.render .json) .json = .ok doc ∧
        Format.sniff (doc.render .json) = .json) ∧
      (doc.root.isMapping = false → Document.parse (doc.render .json) .json =
        .error (.document (.rootShape doc.root.shape))) := by
  have hparse : Document.parse (doc.render .json) .json = Document.ofNode doc.root := by
    rw [parse, parseFrom, render, Format.decode_encode_json hwell hnumbers hdepth]
  rw [hparse]
  obtain ⟨root⟩ := doc
  cases root with
  | scalar value => exact ⟨fun h => (nomatch h), fun _ => rfl⟩
  | sequence items => exact ⟨fun h => (nomatch h), fun _ => rfl⟩
  | mapping entries =>
    exact ⟨fun _ => ⟨rfl, Format.sniff_render_mapping entries⟩, fun h => nomatch h⟩

/-- Escapes, other planes, a key that looks like syntax, empty containers and the least and the
greatest integer. -/
def intricate : Document :=
  ⟨.mapping [
    ("\"a\\/\u007f\u0001",
      .sequence [.ofString "\x00\t\n\r é😀 ", .sequence [], .mapping []]),
    ("", .mapping [("\x7d, \x7b", .scalar (.number (.integer (-0x8000000000000000)))),
      ("", .scalar (.number (.integer 0xFFFFFFFFFFFFFFFF))), ("null", .null),
      ("true", .ofBool false), ("-0", .scalar (.number (.integer 0)))])]⟩

theorem Document.parse_render_json_intricate :
    intricate.root.WellFormed ∧ intricate.root.Integral ∧ intricate.root.depth ≤ 127 ∧
      Document.parse (intricate.render .json) .json = .ok intricate ∧
      Format.sniff (intricate.render .json) = .json := by
  have hwell : intricate.root.WellFormed := by
    simp [intricate, Node.WellFormed, Node.WellFormedEntries, Node.WellFormedItems,
      Entries.Distinct, Entries.keys, Node.null, Node.ofString, Node.ofBool]
  have hnumbers : intricate.root.Integral := by
    simp [intricate, Scalar.Integral, Node.null, Node.ofString, Node.ofBool, Number.fits,
      Text.wordLimit]
  have hdepth : intricate.root.depth ≤ 127 := by decide
  obtain ⟨hread, hsniff⟩ := (Document.parse_render_json hwell hnumbers hdepth).1 rfl
  exact ⟨hwell, hnumbers, hdepth, hread, hsniff⟩

/-- A fix at the empty address replaces the root, and the text of what it leaves is refused. -/
theorem not_all_documents_read_back :
    ¬ ∀ (pipeline : Pipeline) (start doc : Document) (report : RunReport),
      start.root.isMapping = true → pipeline.run start = .ok report doc →
      doc.root.WellFormed → doc.root.Integral → doc.root.depth ≤ 127 →
      Document.parse (doc.render .json) .json = .ok doc := by
  intro hall
  let uproot : Pipeline := ⟨[.applyFixes [⟨none, .set "" .null⟩]]⟩
  have hrun : ∃ report, uproot.run ⟨.mapping []⟩ = .ok report ⟨.null⟩ := ⟨_, rfl⟩
  obtain ⟨report, hreport⟩ := hrun
  have hread := hall uproot _ _ report rfl hreport trivial (.scalar trivial) (by decide)
  have hrefused : Document.parse (Document.render ⟨.null⟩ .json) .json =
      .error (.document (.rootShape .scalar)) := by rfl
  rw [hrefused] at hread
  cases hread

end ApiTidy
