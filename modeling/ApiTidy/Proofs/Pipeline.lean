import ApiTidy.Pipeline
import ApiTidy.Proofs.Edit
import ApiTidy.Proofs.Parameters
import ApiTidy.Proofs.Settled

/-!
Running the built-in passes twice. Each pass leaves something settled that no later pass unsettles;
only pruning may take a marker out, and then takes it out again after the next marking.
-/
namespace ApiTidy
open Alternatives Nullable Examples Document

/-- A configuration without lists of edits, whose marker, fields and categories do not get into the
way of what the passes look at. -/
structure Settling (config : Config) : Prop where
  no_parameters : config.stripParameters = []
  no_relocations : config.relocations = []
  no_fixes : config.fixes = []
  no_extractions : config.extract = []
  marker : OwnKey config.omitEmptyMarker
  not_content : ∀ default ∈ config.responseDefaults, default.field ≠ "content"
  not_example : ∀ default ∈ config.responseDefaults, isExampleKey default.field = false
  keeps_examples : .examples ∉ config.prune
  keeps_requests : .requestBodies ∉ config.prune
  keeps_responses : .responses ∉ config.prune

/-- What the passes of such a configuration make of a document. -/
def effect (config : Config) (doc : Document) : PassName → Document
  | .simplifyContentTypes => ⟨(MediaTypes.simplify doc.root).1⟩
  | .backfillResponses => ⟨(Responses.backfill config.responseDefaults doc.root).1⟩
  | .dedupeAlternatives => ⟨dedupeValue "" doc.root⟩
  | .propagateOmitEmpty => ⟨marked config.omitEmptyMarker doc.root⟩
  | .stripExamples => ⟨resetExamples (strippedRegions doc.root)⟩
  | .pruneUnreachable => doc.sweep config.prune
  | .stripParameters | .relocatePaths | .applyFixes | .extractComponents => doc

theorem changeRoot_eq_ok (change : Change Node) (doc : Document) :
    Pass.changeRoot change doc = .ok (change doc.root).2 ⟨(change doc.root).1⟩ := rfl

/-- The count is that of the examples below keywords, and of the named ones that were left then. -/
theorem removeExamples_eq (doc : Document) :
    Pass.removeExamples doc = .ok ((stripRegions doc.root).2 +
      (componentNames ⟨strippedRegions doc.root⟩ .examples).length)
        ⟨resetExamples (strippedRegions doc.root)⟩ := by
  have hreset : ∃ answer, (resetComponents .examples : Edit Failure Document Bool)
      ⟨strippedRegions doc.root⟩ = .ok answer ⟨resetExamples (strippedRegions doc.root)⟩ := by
    obtain ⟨answer, hanswer⟩ := inField_eq_ok (fun _ => ⟨true, rfl⟩) componentsKey false
      (strippedRegions doc.root)
    exact ⟨answer, onRoot_eq_ok.2 ⟨_, hanswer, rfl⟩⟩
  obtain ⟨answer, hanswer⟩ := hreset
  have hstrip : Pass.changeRoot stripRegions doc =
      .ok (stripRegions doc.root).2 ⟨strippedRegions doc.root⟩ := by
    rw [changeRoot_eq_ok, stripRegions_fst]
  apply Edit.bind_eq_ok.2
  refine ⟨_, _, hstrip, Edit.bind_eq_ok.2 ⟨_, _, rfl, Edit.bind_eq_ok.2 ?_⟩⟩
  exact ⟨answer, _, hanswer, rfl⟩

theorem removeExamples_eq_ok (doc : Document) :
    ∃ count, Pass.removeExamples doc = .ok count ⟨resetExamples (strippedRegions doc.root)⟩ :=
  ⟨_, removeExamples_eq doc⟩

theorem apply_pruneUnreachable (kinds : List ComponentKind) (doc : Document) :
    (Pass.pruneUnreachable kinds).apply doc =
      .ok (doc.unreachable kinds).length (doc.sweep kinds) := by
  show EStateM.Result.ok (prune kinds doc).1.removed.length (prune kinds doc).2 = _
  rw [prune_eq]

variable {config : Config}

theorem apply_ofConfig (h : Settling config) (name : PassName) (doc : Document) :
    ∃ count, (Pass.ofConfig config name).apply doc = .ok count (effect config doc name) := by
  cases name with
  | stripParameters =>
    rw [Pass.ofConfig, h.no_parameters]
    refine ⟨(Parameters.strip [] doc.root).2, ?_⟩
    rw [Pass.apply, changeRoot_eq_ok, (Parameters.still_strip_nil doc.root).fst]
    rfl
  | simplifyContentTypes => exact ⟨_, rfl⟩
  | backfillResponses => exact ⟨_, rfl⟩
  | relocatePaths =>
    refine ⟨0, ?_⟩
    rw [Pass.ofConfig, h.no_relocations]
    rfl
  | applyFixes =>
    refine ⟨0, ?_⟩
    rw [Pass.ofConfig, h.no_fixes]
    rfl
  | extractComponents =>
    refine ⟨0, ?_⟩
    rw [Pass.ofConfig, h.no_extractions]
    rfl
  | dedupeAlternatives => exact ⟨_, by rw [effect, ← dedupe_fst]; rfl⟩
  | propagateOmitEmpty => exact ⟨_, rfl⟩
  | stripExamples => exact removeExamples_eq_ok doc
  | pruneUnreachable => exact ⟨_, apply_pruneUnreachable config.prune doc⟩

/-- Passes by name run one after another, and none of them fails. -/
theorem runPasses_eq_ok (h : Settling config) (names : List PassName) (doc : Document) :
    ∃ report, Pipeline.runPasses (names.map (Pass.ofConfig config)) doc =
      .ok report (names.foldl (effect config) doc) := by
  induction names generalizing doc with
  | nil => exact ⟨[], rfl⟩
  | cons name rest ih =>
    obtain ⟨count, happly⟩ := apply_ofConfig h name doc
    obtain ⟨later, hrest⟩ := ih (effect config doc name)
    refine ⟨((Pass.ofConfig config name).name, count) :: later, Edit.bind_eq_ok.2 ?_⟩
    refine ⟨count, _, Edit.mapError_eq_ok.2 happly, Edit.bind_eq_ok.2 ?_⟩
    exact ⟨later, _, hrest, rfl⟩

/-- What a pass settles. -/
def Settled (config : Config) (doc : Document) : PassName → Prop
  | .simplifyContentTypes => MediaTypes.AllPlain doc
  | .backfillResponses => Responses.AllFilled config.responseDefaults doc
  | .dedupeAlternatives => dedupeValue "" doc.root = doc.root
  | .propagateOmitEmpty => marked config.omitEmptyMarker doc.root = doc.root
  | .stripExamples => strippedRegions doc.root = doc.root ∧ resetExamples doc.root = doc.root
  | .stripParameters | .relocatePaths | .applyFixes | .extractComponents | .pruneUnreachable => True

theorem settled_effect (config : Config) (doc : Document) (name : PassName) :
    Settled config (effect config doc name) name := by
  cases name with
  | simplifyContentTypes => exact MediaTypes.allPlain_simplify doc
  | backfillResponses => exact Responses.allFilled_backfill _ doc
  | dedupeAlternatives => exact dedupeValue_dedupeValue "" doc.root
  | propagateOmitEmpty => exact marked_marked doc.root
  | stripExamples =>
    refine ⟨?_, resetExamples_resetExamples _⟩
    rw [effect, strippedRegions_resetExamples, strippedRegions_strippedRegions]
  | stripParameters | relocatePaths | applyFixes | extractComponents | pruneUnreachable => trivial

theorem effect_eq_self {doc : Document} {name : PassName} (hname : name ≠ .pruneUnreachable)
    (h : Settled config doc name) : effect config doc name = doc := by
  cases name with
  | simplifyContentTypes => exact congrArg Document.mk (MediaTypes.still_simplify h).fst
  | backfillResponses => exact congrArg Document.mk (Responses.still_backfill h).fst
  | dedupeAlternatives => exact congrArg Document.mk h
  | propagateOmitEmpty => exact congrArg Document.mk h
  | stripExamples => exact congrArg Document.mk (by rw [h.1, h.2])
  | stripParameters | relocatePaths | applyFixes | extractComponents => rfl
  | pruneUnreachable => exact absurd rfl hname

/-- A pass leaves settled what another one has settled. -/
def Keeps (config : Config) (first later : PassName) : Prop :=
  ∀ doc, Settled config doc first → Settled config (effect config doc later) first

/-- The passes after the first ones keep what holds of bodies and is kept by every trimming. -/
theorem effect_of_bodies (h : Settling config) {P : Document → Prop}
    (htrim : ∀ old new : Document, Trimmed config.omitEmptyMarker old.root new.root →
      P old → P new)
    (hbodies : ∀ old new : Document, Bodies.all new = Bodies.all old → P old → P new)
    {later : PassName} (hsimplify : later ≠ .simplifyContentTypes)
    (hbackfill : later ≠ .backfillResponses) {doc : Document} (hdoc : P doc) :
    P (effect config doc later) := by
  cases later with
  | simplifyContentTypes => exact absurd rfl hsimplify
  | backfillResponses => exact absurd rfl hbackfill
  | dedupeAlternatives => exact htrim doc _ (trimmed_dedupeValue _ "" doc.root) hdoc
  | propagateOmitEmpty => exact htrim doc _ (trimmed_marked _ doc.root) hdoc
  | stripExamples =>
    exact hbodies ⟨strippedRegions doc.root⟩ _ (bodies_resetExamples _)
      (of_strippedRegions htrim hdoc)
  | pruneUnreachable =>
    refine hbodies doc _ (bodies_onCategories (ComponentKind.nodup_normalize _) ?_ ?_ _ doc) hdoc
    · exact fun hmem => h.keeps_requests (ComponentKind.mem_normalize.1 hmem)
    · exact fun hmem => h.keeps_responses (ComponentKind.mem_normalize.1 hmem)
  | stripParameters | relocatePaths | applyFixes | extractComponents => exact hdoc

theorem keeps_plain (h : Settling config) (later : PassName) :
    Keeps config .simplifyContentTypes later := by
  intro doc hdoc
  by_cases hsimplify : later = .simplifyContentTypes
  · subst hsimplify
    exact settled_effect config doc _
  · by_cases hbackfill : later = .backfillResponses
    · subst hbackfill
      exact Responses.allPlain_backfill h.not_content hdoc
    · refine effect_of_bodies (P := MediaTypes.AllPlain) h ?_ ?_ hsimplify hbackfill hdoc
      · exact fun old new htrimmed => htrimmed.allPlain h.marker.plain
      · intro old new hbodies hold body hmem
        exact hold body (hbodies ▸ hmem)

theorem keeps_filled (h : Settling config) {later : PassName}
    (hsimplify : later ≠ .simplifyContentTypes) : Keeps config .backfillResponses later := by
  intro doc hdoc
  by_cases hbackfill : later = .backfillResponses
  · subst hbackfill
    exact settled_effect config doc _
  · refine effect_of_bodies (P := Responses.AllFilled config.responseDefaults) h ?_ ?_ hsimplify
      hbackfill hdoc
    · exact fun old new htrimmed => htrimmed.allFilled h.not_example
    · intro old new hbodies hold body hmem
      exact hold body (hbodies ▸ hmem)

theorem keeps_deduped (h : Settling config) {later : PassName}
    (hsimplify : later ≠ .simplifyContentTypes) (hbackfill : later ≠ .backfillResponses) :
    Keeps config .dedupeAlternatives later := by
  intro doc hdoc
  have hroot : dedupeValue "" doc.root = doc.root := hdoc
  cases later with
  | simplifyContentTypes => exact absurd rfl hsimplify
  | backfillResponses => exact absurd rfl hbackfill
  | dedupeAlternatives => exact settled_effect config doc _
  | propagateOmitEmpty =>
    show dedupeValue "" (marked _ doc.root) = marked _ doc.root
    rw [← marked_dedupeValue h.marker.not_ref, hroot]
  | stripExamples =>
    show dedupeValue "" (resetExamples (strippedRegions doc.root)) = _
    rw [dedupeValue_resetExamples, dedupeValue_strippedRegions, hroot]
    rfl
  | pruneUnreachable => exact dedupeValue_sweep hroot config.prune
  | stripParameters | relocatePaths | applyFixes | extractComponents => exact hdoc

theorem keeps_marked (h : Settling config) : Keeps config .propagateOmitEmpty .stripExamples := by
  intro doc hdoc
  have hroot : marked config.omitEmptyMarker doc.root = doc.root := hdoc
  refine marked_resetExamples h.marker ?_
  rw [marked_strippedRegions h.marker, hroot]

theorem keeps_stripped (h : Settling config) : Keeps config .stripExamples .pruneUnreachable :=
  fun _ hdoc => ⟨strippedRegions_sweep hdoc.1 config.prune,
    resetExamples_onCategories h.keeps_examples hdoc.2 _⟩

/-- The passes before the last one, each of which keeps what those before it have settled. -/
def treePasses : List PassName :=
  [.stripParameters, .simplifyContentTypes, .backfillResponses, .relocatePaths, .applyFixes,
    .extractComponents, .dedupeAlternatives, .propagateOmitEmpty, .stripExamples]

theorem pairwise_keeps (h : Settling config) : treePasses.Pairwise (Keeps config) := by
  unfold treePasses
  refine .cons (fun _ _ _ _ => trivial) <| .cons (fun later _ => keeps_plain h later) <|
    .cons ?filled <| .cons (fun _ _ _ _ => trivial) <| .cons (fun _ _ _ _ => trivial) <|
    .cons (fun _ _ _ _ => trivial) <| .cons ?deduped <| .cons ?marked <| .cons ?stripped .nil
  case filled =>
    intro later hmem
    exact keeps_filled h (by rintro rfl; simp at hmem)
  case deduped =>
    intro later hmem
    exact keeps_deduped h (by rintro rfl; simp at hmem) (by rintro rfl; simp at hmem)
  case marked =>
    intro later hmem
    obtain rfl := List.mem_singleton.1 hmem
    exact keeps_marked h
  case stripped => exact fun _ hmem => nomatch hmem

/-- After a run everything is settled that one of its passes settles. -/
theorem settled_foldl {names : List PassName} (hnames : names.Pairwise (Keeps config))
    {name : PassName} (hname : name ∈ names) (doc : Document) :
    Settled config (names.foldl (effect config) doc) name := by
  induction names generalizing doc with
  | nil => simp at hname
  | cons first rest ih =>
    obtain ⟨hfirst, hrest⟩ := List.pairwise_cons.1 hnames
    rcases List.mem_cons.1 hname with rfl | hlater
    · exact rest.foldlRecOn (effect config) (settled_effect config doc name)
        fun start hstart pass hpass => hfirst pass hpass start hstart
    · exact ih hrest hlater _

/-- The passes before the last one leave what they have made of a document. -/
theorem foldl_foldl {names : List PassName} (hsub : names.Sublist treePasses)
    (h : Settling config) (doc : Document) :
    names.foldl (effect config) (names.foldl (effect config) doc) =
      names.foldl (effect config) doc := by
  refine names.foldlRecOn (effect config) (motive := (· = _)) rfl fun start hstart name hname => ?_
  rw [hstart]
  refine effect_eq_self ?_ (settled_foldl ((pairwise_keeps h).sublist hsub) hname doc)
  rintro rfl
  exact absurd (hsub.subset hname) (by decide)

theorem keeps_prune (h : Settling config) {name : PassName} (hname : name ≠ .propagateOmitEmpty) :
    Keeps config name .pruneUnreachable := by
  cases name with
  | simplifyContentTypes => exact keeps_plain h _
  | backfillResponses => exact keeps_filled h (by decide)
  | dedupeAlternatives => exact keeps_deduped h (by decide) (by decide)
  | propagateOmitEmpty => exact absurd rfl hname
  | stripExamples => exact keeps_stripped h
  | stripParameters | relocatePaths | applyFixes | extractComponents | pruneUnreachable =>
    exact fun _ _ => trivial

/-- What stays settled when the components that pruning has left are marked again. -/
theorem settled_marked_sweep (h : Settling config) {doc : Document}
    (hmarked : Settled config doc .propagateOmitEmpty) {name : PassName}
    (hdoc : Settled config doc name) :
    Settled config (effect config (doc.sweep config.prune) .propagateOmitEmpty) name := by
  by_cases hname : name = .propagateOmitEmpty
  · subst hname
    exact settled_effect config _ _
  have hswept := keeps_prune h hname doc hdoc
  cases name with
  | simplifyContentTypes => exact keeps_plain h _ _ hswept
  | backfillResponses => exact keeps_filled h (by decide) _ hswept
  | dedupeAlternatives => exact keeps_deduped h (by decide) (by decide) _ hswept
  | propagateOmitEmpty => exact absurd rfl hname
  | stripExamples =>
    constructor
    · show strippedRegions (marked _ (doc.sweep config.prune).root) = marked _ _
      rw [← marked_strippedRegions h.marker, strippedRegions_sweep hdoc.1]
    · show resetExamples (marked _ (doc.sweep config.prune).root) = marked _ _
      rw [marked_sweep h.marker hmarked]
      exact resetExamples_onCategories h.keeps_examples hdoc.2 _
  | stripParameters | relocatePaths | applyFixes | extractComponents | pruneUnreachable => trivial

/-- Pruning in between makes no difference: at most markers come back, and go again. -/
theorem sweep_foldl_sweep {names : List PassName} (hsub : names.Sublist treePasses)
    (h : Settling config) {doc : Document} (hdoc : ∀ name ∈ names, Settled config doc name) :
    (names.foldl (effect config) (doc.sweep config.prune)).sweep config.prune =
      doc.sweep config.prune := by
  -- every pass keeps the run at the pruned document or at that document marked
  have hnear : names.foldl (effect config) (doc.sweep config.prune) = doc.sweep config.prune ∨
      .propagateOmitEmpty ∈ names ∧ names.foldl (effect config) (doc.sweep config.prune) =
        effect config (doc.sweep config.prune) .propagateOmitEmpty := by
    refine names.foldlRecOn (effect config) (motive := fun near => near = doc.sweep config.prune ∨
      .propagateOmitEmpty ∈ names ∧
        near = effect config (doc.sweep config.prune) .propagateOmitEmpty) (.inl rfl) ?_
    intro near hnear name hname
    have hlast : name ≠ .pruneUnreachable := by
      rintro rfl
      exact absurd (hsub.subset hname) (by decide)
    rcases hnear with rfl | ⟨hmark, rfl⟩
    · by_cases hmarks : name = .propagateOmitEmpty
      · subst hmarks
        exact .inr ⟨hname, rfl⟩
      · exact .inl (effect_eq_self hlast (keeps_prune h hmarks doc (hdoc name hname)))
    · exact .inr ⟨hmark, effect_eq_self hlast (settled_marked_sweep h (hdoc _ hmark)
        (hdoc name hname))⟩
  rcases hnear with hsame | ⟨hmark, hmarked⟩
  · rw [hsame, sweep_sweep]
  · rw [hmarked]
    exact sweep_marked_sweep h.marker (hdoc _ hmark) config.prune

/-- A configuration that skips known passes only has the pipeline of all others. -/
theorem Pipeline.ofConfig_of_isKnown (h : ∀ name ∈ config.skip, PassName.isKnown name = true) :
    ofConfig config = .ok ⟨(PassName.all.filter fun name => !config.skip.contains name.text).map
      (Pass.ofConfig config)⟩ := by
  have hknown : config.skip.find? (fun name => !PassName.isKnown name) = none :=
    List.find?_eq_none.2 fun name hmem => by simp [h name hmem]
  rw [ofConfig, hknown]

theorem run_run (h : Settling config)
    (hskip : ∀ name ∈ config.skip, PassName.isKnown name = true) :
    ∃ pipeline, Pipeline.ofConfig config = .ok pipeline ∧ ∀ doc, ∃ report once again,
      pipeline.run doc = .ok report once ∧ pipeline.run once = .ok again once := by
  refine ⟨_, Pipeline.ofConfig_of_isKnown hskip, fun doc => ?_⟩
  let kept (name : PassName) : Bool := !config.skip.contains name.text
  have hnames : PassName.all.filter kept =
      treePasses.filter kept ++ [PassName.pruneUnreachable].filter kept :=
    List.filter_append treePasses [.pruneUnreachable]
  have hsub : (treePasses.filter kept).Sublist treePasses := List.filter_sublist
  obtain ⟨report, hrun⟩ := runPasses_eq_ok h (PassName.all.filter kept) doc
  obtain ⟨again, hrerun⟩ := runPasses_eq_ok h (PassName.all.filter kept)
    ((PassName.all.filter kept).foldl (effect config) doc)
  refine ⟨report, _, again, hrun, hrerun.trans (congrArg _ ?_)⟩
  rw [hnames, List.foldl_append, List.foldl_append]
  cases hprune : kept .pruneUnreachable with
  | false =>
    rw [List.filter_cons_of_neg (by simp [hprune])]
    exact foldl_foldl hsub h doc
  | true =>
    rw [List.filter_cons_of_pos hprune]
    exact sweep_foldl_sweep hsub h fun name hname =>
      settled_foldl ((pairwise_keeps h).sublist hsub) hname doc

theorem settling_standard : Settling Config.standard := by
  constructor
  case marker =>
    refine ⟨by decide, by decide, by decide, fun kind => ?_, by decide, by decide⟩
    cases kind <;> decide
  all_goals decide

/-- The built-in passes, without any that are skipped, settle every document in one run: a second
run of the same pipeline returns exactly the same document. -/
theorem standard_run_idempotent (skip : List String)
    (hskip : ∀ name ∈ skip, PassName.isKnown name = true) :
    ∃ pipeline, Pipeline.ofConfig { Config.standard with skip := skip } = .ok pipeline ∧
      ∀ doc, ∃ report once again,
        pipeline.run doc = .ok report once ∧ pipeline.run once = .ok again once := by
  obtain ⟨hparameters, hrelocations, hfixes, hextract, hmarker, hcontent, hexample, hexamples,
    hrequests, hresponses⟩ := settling_standard
  exact run_run ⟨hparameters, hrelocations, hfixes, hextract, hmarker, hcontent, hexample,
    hexamples, hrequests, hresponses⟩ hskip

/-- A schema named like the keyword that asks for a marker. Each run adds the marker as a schema and
removes it again. -/
def keywordSchema : Document :=
  ⟨.mapping [("paths", .mapping [("/a", (Reference.mk .schemas "nullable").toNode)]),
    ("components", .mapping [("schemas", .mapping [("nullable", .ofBool true)])])]⟩

def keepingExamples : Pipeline :=
  ⟨(PassName.all.filter (· ≠ .stripExamples)).map
    (Pass.ofConfig { Config.standard with skip := ["strip-examples"] })⟩

theorem standard_run_idempotent_keywordSchema :
    (∀ name ∈ ["strip-examples"], PassName.isKnown name = true) ∧
      Pipeline.ofConfig { Config.standard with skip := ["strip-examples"] } =
        .ok keepingExamples ∧
      ∃ report once again, keepingExamples.run keywordSchema = .ok report once ∧
        keepingExamples.run once = .ok again once ∧ RunReport.total again = 2 := by
  have hknown : ∀ name ∈ ["strip-examples"], PassName.isKnown name = true := by decide
  have hpasses : Pipeline.ofConfig { Config.standard with skip := ["strip-examples"] } =
      .ok keepingExamples := rfl
  obtain ⟨pipeline, hpipeline, hrun⟩ := standard_run_idempotent ["strip-examples"] hknown
  obtain rfl := Except.ok.inj (hpasses.symm.trans hpipeline)
  obtain ⟨report, once, again, honce, hagain⟩ := hrun keywordSchema
  have hfixed : ∃ found, keepingExamples.run keywordSchema = .ok found keywordSchema := ⟨_, rfl⟩
  have htotal : (match keepingExamples.run keywordSchema with
      | .ok edits _ => RunReport.total edits
      | .error _ _ => 0) = 2 := rfl
  obtain ⟨found, hfound⟩ := hfixed
  obtain ⟨rfl, rfl⟩ := EStateM.Result.ok.inj (honce.symm.trans hfound)
  rw [hagain] at htotal
  exact ⟨hknown, hpasses, report, keywordSchema, again, honce, hagain, htotal⟩

end ApiTidy
