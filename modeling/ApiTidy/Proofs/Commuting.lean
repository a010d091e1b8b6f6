import ApiTidy.Proofs.Examples
import ApiTidy.Proofs.Nullable

/-!
Removing repeated alternatives, setting markers and removing examples do not get into each other's
way: any two of them may change places.
-/
namespace ApiTidy
open Alternatives Nullable Examples
variable {marker : String}

theorem marked_dedupeValue (h : marker ≠ Node.refKey) (key : String) (node : Node) :
    marked marker (dedupeValue key node) = dedupeValue key (marked marker node) := by
  induction node using Node.induct generalizing key with
  | scalar value => rfl
  | sequence items ih =>
    have hitems : ∀ kept : List Node, kept.Sublist items →
        (kept.map (dedupeValue "")).map (marked marker) =
          (kept.map (marked marker)).map (dedupeValue "") := by
      intro kept hkept
      rw [List.map_map, List.map_map]
      exact List.map_congr_left fun item hmem => ih item (hkept.subset hmem) ""
    rw [dedupeValue_sequence, marked_sequence, marked_sequence, dedupeValue_sequence]
    split
    · rw [dropRepeated_map (refPointer?_marked h), hitems _ (dropRepeated_sublist [] items)]
    · rw [hitems items (List.Sublist.refl items)]
  | mapping entries ih =>
    rw [dedupeValue_mapping, marked_mapping, marked_mapping, dedupeValue_mapping,
      ← complete_mapValues bool?_dedupeValue, Entries.mapValues_mapValues,
      Entries.mapValues_mapValues]
    exact congrArg _ (congrArg _ (Entries.mapValues_congr fun entry hmem => ih entry hmem entry.1))

theorem stripped_dedupeValue (named : Bool) (key : String) (node : Node) :
    stripped named (dedupeValue key node) = dedupeValue key (stripped named node) := by
  induction node using Node.induct generalizing named key with
  | scalar value => simp
  | sequence items ih =>
    have hitems : ∀ kept : List Node, kept.Sublist items →
        (kept.map (dedupeValue "")).map (stripped false) =
          (kept.map (stripped false)).map (dedupeValue "") := by
      intro kept hkept
      rw [List.map_map, List.map_map]
      exact List.map_congr_left fun item hmem => ih item (hkept.subset hmem) false ""
    rw [dedupeValue_sequence, stripped_sequence, stripped_sequence, dedupeValue_sequence]
    split
    · rw [dropRepeated_map (refPointer?_stripped false), hitems _ (dropRepeated_sublist [] items)]
    · rw [hitems items (List.Sublist.refl items)]
  | mapping entries ih =>
    rw [dedupeValue_mapping, stripped_mapping, stripped_mapping, dedupeValue_mapping,
      Entries.filter_mapValues, Entries.mapValues_mapValues, Entries.mapValues_mapValues]
    refine congrArg _ (Entries.mapValues_congr fun entry hmem => ?_)
    exact ih entry (List.mem_filter.1 hmem).1 _ entry.1

theorem stripped_marked (h : isExampleKey marker = false) (named : Bool) (node : Node) :
    stripped named (marked marker node) = marked marker (stripped named node) := by
  induction node using Node.induct generalizing named with
  | scalar value => simp
  | sequence items ih =>
    rw [marked_sequence, stripped_sequence, stripped_sequence, marked_sequence, List.map_map,
      List.map_map]
    exact congrArg _ (List.map_congr_left fun item hmem => ih item hmem false)
  | mapping entries ih =>
    have hnullable : isKept named "nullable" = true := by cases named <;> decide
    have hmarker : isKept named marker = true := by simp [isKept, h]
    rw [marked_mapping, stripped_mapping, stripped_mapping, marked_mapping,
      ← complete_filter hnullable hmarker, Entries.filter_mapValues,
      ← complete_mapValues fun key => bool?_stripped (namesBelow named key),
      Entries.mapValues_mapValues, Entries.mapValues_mapValues]
    refine congrArg _ (congrArg _ (Entries.mapValues_congr fun entry hmem => ?_))
    exact ih entry (List.mem_filter.1 hmem).1 _

end ApiTidy
