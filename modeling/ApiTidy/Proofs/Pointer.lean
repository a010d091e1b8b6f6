import Mathlib.Logic.Function.Basic
import Mathlib.Tactic.SplitIfs
import ApiTidy.Proofs.Components
import ApiTidy.Proofs.Text.Replace
import ApiTidy.Proofs.Text.Split

/-!
Pointers are read back. Escapes are written by two replacements and undone by two, each through the
whole text, and both pairs come to one reading from the left: what the first replacement writes is not
touched by the second. An escaped name holds no `/`, so the pointer of a reference ends where its name
does, and undoing the escapes gives the name again.
-/
namespace ApiTidy

theorem ComponentKind.slash_notMem_key (kind : ComponentKind) : '/' ∉ kind.key.toList := by
  cases kind <;> decide

namespace Reference
variable {reference : Reference} {pointer : String}

/-- Each character is escaped for itself, as there is no `/` in what stands for `~`. -/
theorem escape_cons (c : Char) (rest : List Char) :
    escape (c :: rest) =
      (if c = '~' then ['~', '0'] else if c = '/' then ['~', '1'] else [c]) ++ escape rest := by
  simp only [escape, Text.replace_singleton, List.flatMap_cons, List.flatMap_append]
  split_ifs with htilde hslash
  · simp
  · simp [hslash]
  · simp [hslash]

theorem slash_notMem_escape (name : List Char) : '/' ∉ escape name :=
  Text.notMem_replace_singleton (by decide) _

theorem escape_ne_nil {name : List Char} (h : name ≠ []) : escape name ≠ [] := by
  have htilde : Text.replace ['~'] ['~', '0'] name ≠ [] := Text.replace_ne_nil (by simp) h
  exact Text.replace_ne_nil (by simp) htilde

theorem unescape_ne_nil {text : List Char} (h : text ≠ []) : unescape text ≠ [] := by
  have hslash : Text.replace ['~', '1'] ['/'] text ≠ [] := Text.replace_ne_nil (by simp) h
  exact Text.replace_ne_nil (by simp) hslash

theorem unescape_cons {c : Char} (h : c ≠ '~') (rest : List Char) :
    unescape (c :: rest) = c :: unescape rest := by
  have hno (mark : Char) (text : List Char) : ¬ ['~', mark] <+: c :: text := by
    simp [List.cons_prefix_cons, h.symm]
  rw [unescape, Text.replace_cons (hno '1' rest), Text.replace_cons (hno '0' _), unescape]

/-- The digit after an escaped `~` is not read as part of another escape. -/
theorem unescape_zero (rest : List Char) :
    unescape ('~' :: '0' :: rest) = '~' :: unescape rest := by
  have htilde : ¬ ['~', '1'] <+: '~' :: '0' :: rest := by simp [List.cons_prefix_cons]
  have hzero : ¬ ['~', '1'] <+: '0' :: rest := by simp [List.cons_prefix_cons]
  -- the first replacement passes both characters by, and the second takes them together
  rw [unescape, Text.replace_cons htilde, Text.replace_cons hzero]
  exact Text.replace_append (List.cons_ne_nil '~' ['0']) ['~'] _

/-- Were `~` put back first, it would join the digit after it. -/
example : unescape "~01".toList = "~1".toList ∧
    Text.replace ['~', '1'] ['/'] (Text.replace ['~', '0'] ['~'] "~01".toList) = ['/'] := by
  decide

theorem unescape_one (rest : List Char) :
    unescape ('~' :: '1' :: rest) = '/' :: unescape rest := by
  have hone : Text.replace ['~', '1'] ['/'] ('~' :: '1' :: rest) =
      '/' :: Text.replace ['~', '1'] ['/'] rest :=
    Text.replace_append (List.cons_ne_nil '~' ['1']) ['/'] rest
  have hslash (text : List Char) : ¬ ['~', '0'] <+: '/' :: text := by simp [List.cons_prefix_cons]
  rw [unescape, hone, Text.replace_cons (hslash _), unescape]

/-- Reading undoes the escapes. -/
theorem unescape_escape (name : List Char) : unescape (escape name) = name := by
  induction name with
  | nil => rfl
  | cons c rest ih =>
    rw [escape_cons]
    split_ifs with htilde hslash
    · rw [htilde, List.cons_append, List.singleton_append, unescape_zero, ih]
    · rw [hslash, List.cons_append, List.singleton_append, unescape_one, ih]
    · rw [List.singleton_append, unescape_cons htilde, ih]

/-- A reference with a name is what its pointer says. -/
theorem parse?_pointer (h : reference.name ≠ "") :
    parse? reference.pointer = some reference := by
  have hname : escape reference.name.toList ≠ [] :=
    escape_ne_nil fun hnil => h (String.toList_eq_nil_iff.1 hnil)
  have hstart : pointerStart.isPrefixOf? reference.pointer.toList =
      some (reference.kind.key.toList ++ '/' :: escape reference.name.toList) := by
    rw [List.isPrefixOf?_eq_some_iff_append_eq, Reference.pointer, String.toList_ofList,
      List.append_assoc]
  have hcut := Text.cutAt_append reference.kind.slash_notMem_key (escape reference.name.toList)
  simp only [parse?, hstart, hcut, Option.bind_eq_bind, Option.bind_some, String.ofList_toList,
    ComponentKind.ofKey?_key, Text.before_of_notMem (slash_notMem_escape reference.name.toList)]
  rw [unescape_escape, String.ofList_toList]

/-- The mapping that refers to a component is read as the reference to it. -/
theorem ofNode?_toNode (h : reference.name ≠ "") : ofNode? reference.toNode = some reference := by
  have hpointer : reference.toNode.refPointer? = some reference.pointer := by
    simp [toNode, Node.refPointer?, Node.field?, Node.ofString, Node.string?]
  rw [ofNode?, hpointer, Option.bind_some, parse?_pointer h]

/-- A pointer without a name leads to no component. -/
theorem name_ne_of_parse? (h : parse? pointer = some reference) : reference.name ≠ "" := by
  obtain ⟨rest, -, hrest⟩ := Option.bind_eq_some_iff.1 h
  obtain ⟨⟨category, tail⟩, -, htail⟩ := Option.bind_eq_some_iff.1 hrest
  obtain ⟨kind, -, hname⟩ := Option.bind_eq_some_iff.1 htail
  split at hname
  next => simp at hname
  next hwritten =>
    obtain rfl := Option.some.inj hname
    intro hempty
    refine unescape_ne_nil hwritten (String.ofList_injective ?_)
    exact hempty.trans String.ofList_nil.symm

/-- The category of a pointer ends at the first `/`, and the rest is the escaped name. -/
theorem pointer_injective : Function.Injective Reference.pointer := by
  intro a b h
  have hlists : pointerStart ++ (a.kind.key.toList ++ '/' :: escape a.name.toList) =
      pointerStart ++ (b.kind.key.toList ++ '/' :: escape b.name.toList) := by
    rw [← List.append_assoc, ← List.append_assoc]
    exact String.ofList_injective h
  have hcut := congrArg (Text.cutAt '/') (List.append_cancel_left hlists)
  rw [Text.cutAt_append a.kind.slash_notMem_key, Text.cutAt_append b.kind.slash_notMem_key] at hcut
  obtain ⟨hkey, hescaped⟩ := Prod.mk.inj (Option.some.inj hcut)
  have hkind : a.kind = b.kind := ComponentKind.key_inj (String.toList_inj.1 hkey)
  have hname : a.name = b.name := by
    apply String.toList_inj.1
    rw [← unescape_escape a.name.toList, hescaped, unescape_escape]
  cases a
  cases b
  simp_all

/-- Every reference with a name is read back from its pointer, whatever characters the name has, and
different references have different pointers. What is read from any text is a reference with a name,
and so is read back too. -/
theorem pointers_read_back :
    (∀ reference : Reference, reference.name ≠ "" →
      parse? reference.pointer = some reference) ∧
    Function.Injective Reference.pointer ∧
    ∀ (pointer : String) (reference : Reference), parse? pointer = some reference →
      reference.name ≠ "" ∧ parse? reference.pointer = some reference := by
  refine ⟨fun _ => parse?_pointer, pointer_injective, fun pointer reference h => ?_⟩
  have hname := name_ne_of_parse? h
  exact ⟨hname, parse?_pointer hname⟩

/-- A name that looks escaped, and a pointer that leads deeper into a component. -/
theorem pointers_read_back_tangled :
    "~01/~1" ≠ "" ∧ parse? (Reference.mk .schemas "~01/~1").pointer = some ⟨.schemas, "~01/~1"⟩ ∧
      (Reference.mk .schemas "~01/~1").pointer = "#/components/schemas/~001~1~01" ∧
      parse? "#/components/schemas/~01~1/x" = some ⟨.schemas, "~1/"⟩ ∧
      parse? (Reference.mk .schemas "~1/").pointer = some ⟨.schemas, "~1/"⟩ := by
  obtain ⟨hwritten, -, hread⟩ := pointers_read_back
  have hdeeper : parse? "#/components/schemas/~01~1/x" = some ⟨.schemas, "~1/"⟩ := by decide
  exact ⟨by decide, hwritten _ (by decide), by decide, hdeeper, (hread _ _ hdeeper).2⟩

end Reference
end ApiTidy
