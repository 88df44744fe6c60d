import PiMono.Lib.CodeUnits
import Mathlib.Data.List.Infix

/-!
# Resolving model references

`findExactModelReferenceMatch`, `tryMatchModel`, `parseModelPattern` and `resolveCliModel` of
`coding-agent/src/core/model-resolver.ts`. `toLowerCase`, `localeCompare`, the default models and
the configured providers are parameters. A reference resolves to the model that it names exactly
if no other model of its provider is read from it (`resolves_iff`).
-/

namespace PiMono.CodingAgent.ModelResolver

/-- `Model`; `rest` are its other fields. -/
structure Model (δ : Type) where
  provider : JsString
  id : JsString
  name : Option JsString
  reasoning : Bool
  rest : δ
  deriving DecidableEq

inductive ThinkingLevel where
  | off
  | minimal
  | low
  | medium
  | high
  | xhigh
  | max
  deriving DecidableEq

def ThinkingLevel.text : ThinkingLevel → JsString
  | .off => js "off"
  | .minimal => js "minimal"
  | .low => js "low"
  | .medium => js "medium"
  | .high => js "high"
  | .xhigh => js "xhigh"
  | .max => js "max"

/-- `VALID_THINKING_LEVELS` -/
def validThinkingLevels : List ThinkingLevel :=
  [.off, .minimal, .low, .medium, .high, .xhigh, .max]

/-- `isValidThinkingLevel`, with the level. -/
def thinkingLevel? (level : JsString) : Option ThinkingLevel :=
  validThinkingLevels.find? (·.text = level)

/-- What is in front of the first slash, and behind it. -/
def splitSlash? : JsString → Option (JsString × JsString)
  | [] => none
  | u :: us => if u = 0x2F then some ([], us) else (splitSlash? us).map fun s => (u :: s.1, s.2)

/-- What is in front of the last colon, and behind it. -/
def splitLastColon? : JsString → Option (JsString × JsString)
  | [] => none
  | u :: us =>
    match splitLastColon? us with
    | some s => some (u :: s.1, s.2)
    | none => if u = 0x3A then some ([], us) else none

/-- A date is at the end: a hyphen and eight digits. -/
def isDated (id : JsString) : Bool :=
  let date := id.drop (id.length - 9)
  date.length = 9 && date.head? = some 0x2D && date.tail.all fun u => 0x30 ≤ u && u ≤ 0x39

def isAlias (id : JsString) : Bool := js "-latest" <:+ id || !isDated id

structure ParsedModelResult (δ : Type) where
  model : Option (Model δ)
  thinkingLevel : Option ThinkingLevel
  warning : Option JsString
  deriving DecidableEq

structure ResolveCliModelResult (δ : Type) where
  model : Option (Model δ)
  thinkingLevel : Option ThinkingLevel
  warning : Option JsString
  error : Option JsString
  deriving DecidableEq

/-- What the resolver asks of the language and of the runtime. -/
structure Resolver where
  toLowerCase : JsString → JsString
  localeCompare : JsString → JsString → Int
  defaultModelPerProvider : JsString → Option JsString
  hasConfiguredAuth : JsString → Bool

namespace Resolver

variable {δ : Type} (r : Resolver)

/-- `${model.provider}/${model.id}` -/
def reference (model : Model δ) : JsString := model.provider ++ 0x2F :: model.id

/-- The only one of the matches; `none` if there is none, `some none` if there are more. -/
def only? (models : List (Model δ)) : Option (Option (Model δ)) :=
  match models with
  | [] => none
  | [model] => some (some model)
  | _ => some none

/-- The matches of provider and id around the first slash. -/
def partMatches (trimmedReference : JsString) (availableModels : List (Model δ)) :
    List (Model δ) :=
  match splitSlash? trimmedReference with
  | none => []
  | some (front, back) =>
    let provider := trim front
    let modelId := trim back
    if provider ≠ [] ∧ modelId ≠ [] then
      availableModels.filter fun model =>
        r.toLowerCase model.provider = r.toLowerCase provider ∧
          r.toLowerCase model.id = r.toLowerCase modelId
    else []

def findExactModelReferenceMatch (modelReference : JsString) (availableModels : List (Model δ)) :
    Option (Model δ) :=
  let trimmedReference := trim modelReference
  if trimmedReference = [] then none
  else
    let normalizedReference := r.toLowerCase trimmedReference
    let canonicalMatches := availableModels.filter fun model =>
      r.toLowerCase (reference model) = normalizedReference
    match only? canonicalMatches with
    | some found => found
    | none =>
      match only? (r.partMatches trimmedReference availableModels) with
      | some found => found
      | none =>
        let idMatches := availableModels.filter fun model =>
          r.toLowerCase model.id = normalizedReference
        (only? idMatches).join

/-- The models whose id or name include the pattern. -/
def similar (modelPattern : JsString) (availableModels : List (Model δ)) : List (Model δ) :=
  availableModels.filter fun model =>
    r.toLowerCase modelPattern <:+: r.toLowerCase model.id ∨
      ∃ name ∈ model.name, r.toLowerCase modelPattern <:+: r.toLowerCase name

/-- `models.sort((a, b) => b.id.localeCompare(a.id))[0]` -/
def highest (models : List (Model δ)) : Option (Model δ) :=
  (models.mergeSort fun (a b : Model δ) => r.localeCompare b.id a.id ≤ 0).head?

/-- The highest alias, or else the latest dated version. -/
def preferred (matching : List (Model δ)) : Option (Model δ) :=
  let aliases := matching.filter fun model => isAlias model.id
  let datedVersions := matching.filter fun model => !isAlias model.id
  if 0 < aliases.length then r.highest aliases else r.highest datedVersions

def tryMatchModel (modelPattern : JsString) (availableModels : List (Model δ)) :
    Option (Model δ) :=
  match r.findExactModelReferenceMatch modelPattern availableModels with
  | some exactMatch => some exactMatch
  | none =>
    let matching := r.similar modelPattern availableModels
    if matching.length = 0 then none else r.preferred matching

theorem splitLastColon?_length {text : JsString} {s : JsString × JsString}
    (h : splitLastColon? text = some s) : s.1.length < text.length := by
  induction text generalizing s with
  | nil => cases h
  | cons u us ih =>
    rw [splitLastColon?] at h
    split at h
    · rename_i s' hs'
      obtain rfl := Option.some.inj h
      exact Nat.succ_lt_succ (ih hs')
    · obtain ⟨-, h⟩ := Option.ite_none_right_eq_some.mp h
      obtain rfl := Option.some.inj h
      exact Nat.succ_pos _

/-- `parseModelPattern` -/
def parseModelPattern (pattern : JsString) (availableModels : List (Model δ))
    (allowInvalidThinkingLevelFallback : Bool) : ParsedModelResult δ :=
  match r.tryMatchModel pattern availableModels with
  | some exactMatch => ⟨some exactMatch, none, none⟩
  | none =>
    match hsplit : splitLastColon? pattern with
    | none => ⟨none, none, none⟩
    | some (front, suffix) =>
      match thinkingLevel? suffix with
      | some level =>
        let result := parseModelPattern front availableModels allowInvalidThinkingLevelFallback
        if result.model.isSome then
          ⟨result.model, if result.warning.isSome then none else some level, result.warning⟩
        else result
      | none =>
        if !allowInvalidThinkingLevelFallback then ⟨none, none, none⟩
        else
          let result := parseModelPattern front availableModels allowInvalidThinkingLevelFallback
          if result.model.isSome then
            ⟨result.model, none, some (js "Invalid thinking level \"" ++ suffix ++
              js "\" in pattern \"" ++ pattern ++ js "\". Using default instead.")⟩
          else result
termination_by pattern.length
decreasing_by
  · exact splitLastColon?_length hsplit
  · exact splitLastColon?_length hsplit

/-- `buildFallbackModel` -/
def buildFallbackModel (provider modelId : JsString) (availableModels : List (Model δ)) :
    Option (Model δ) :=
  let providerModels := availableModels.filter fun model => model.provider = provider
  let baseModel : Option (Model δ) := match r.defaultModelPerProvider provider with
    | some defaultId => (providerModels.find? fun model => model.id = defaultId).or
        providerModels.head?
    | none => providerModels.head?
  baseModel.map fun model => { model with id := modelId, name := some modelId }

/-- `providerMap.get(name.toLowerCase())`: a later model overwrites an earlier one. -/
def canonicalProvider? (name : JsString) (availableModels : List (Model δ)) : Option JsString :=
  ((availableModels.map (·.provider)).reverse.find?
    fun provider => r.toLowerCase provider = r.toLowerCase name)

/-- A value that is `undefined` or empty counts as none. -/
def truthy (text : Option JsString) : Option JsString := text.filter (· ≠ [])

/-- The raw matches that are preferred to a model without authentication. -/
def rawOverride? (cliModel : JsString) (model : Model δ) (availableModels : List (Model δ)) :
    Option (Model δ) :=
  let rawExactMatches := availableModels.filter fun m =>
    r.toLowerCase m.id = r.toLowerCase cliModel ∧ ¬ (m.id = model.id ∧ m.provider = model.provider)
  if 0 < rawExactMatches.length ∧ r.hasConfiguredAuth model.provider = false then
    (only? (rawExactMatches.filter (r.hasConfiguredAuth ·.provider))).join
  else none

/-- The models whose id or reference is the text. -/
def literalMatches (cliModel : JsString) (availableModels : List (Model δ)) : List (Model δ) :=
  availableModels.filter fun m =>
    r.toLowerCase m.id = r.toLowerCase cliModel ∨
      r.toLowerCase (reference m) = r.toLowerCase cliModel

/-- What is returned where no provider is given or inferred and a literal reference matches. -/
def resolveLiteral? (cliModel : JsString) (availableModels : List (Model δ)) :
    Option (ResolveCliModelResult δ) :=
  match r.literalMatches cliModel availableModels with
  | [] => none
  | [model] => some ⟨some model, none, none, none⟩
  | exactMatches =>
    let authenticatedExactMatches := exactMatches.filter (r.hasConfiguredAuth ·.provider)
    match authenticatedExactMatches with
    | [model] => some ⟨some model, none, none, none⟩
    | _ =>
      let listed := (js ", ").intercalate
        ((exactMatches.map reference).mergeSort fun a b => r.localeCompare a b ≤ 0)
      let authHint := if authenticatedExactMatches.length = 0 then
        js "No matching provider is authenticated."
      else js "More than one matching provider is authenticated."
      some ⟨none, none, none, some (js "Model \"" ++ cliModel ++
        js "\" is ambiguous across providers: " ++ listed ++ js ". " ++ authHint ++
        js " Use --provider or provider/model.")⟩

/-- The model for an id that the provider does not list. -/
def resolveCustom? (provider pattern : JsString) (cliThinking : Option ThinkingLevel)
    (warning : Option JsString) (availableModels : List (Model δ)) :
    Option (ResolveCliModelResult δ) :=
  let (fallbackPattern, fallbackThinking) :=
    if cliThinking.isSome then (pattern, none)
    else match splitLastColon? pattern with
      | none => (pattern, none)
      | some (front, suffix) =>
        match thinkingLevel? suffix with
        | some level => (front, some level)
        | none => (pattern, none)
  (r.buildFallbackModel provider fallbackPattern availableModels).map fun fallbackModel =>
    let requestedThinking := cliThinking.or fallbackThinking
    let model := if requestedThinking.isSome ∧ requestedThinking ≠ some .off then
      { fallbackModel with reasoning := true } else fallbackModel
    let notFound := js "Model \"" ++ fallbackPattern ++ js "\" not found for provider \"" ++
      provider ++ js "\". Using custom model id."
    let fallbackWarning := match truthy warning with
      | some warning => warning ++ js " " ++ notFound
      | none => notFound
    ⟨some model, fallbackThinking, some fallbackWarning, none⟩

/-- What is returned where the pattern matches no model of an inferred provider. -/
def resolveRaw? (cliModel : JsString) (availableModels : List (Model δ)) :
    Option (ResolveCliModelResult δ) :=
  match (r.literalMatches cliModel availableModels).head? with
  | some exact => some ⟨some exact, none, none, none⟩
  | none =>
    let fallback := r.parseModelPattern cliModel availableModels false
    fallback.model.map fun model => ⟨some model, fallback.thinkingLevel, fallback.warning, none⟩

/-- The pattern without the prefix of the given provider. -/
def stripProvider (provider cliModel : JsString) : JsString :=
  let front := provider ++ [0x2F]
  if r.toLowerCase front <+: r.toLowerCase cliModel then cliModel.drop front.length else cliModel

/-- `resolveCliModel`; `provider` is undefined or not empty behind the first step. -/
def resolveCliModel (availableModels : List (Model δ)) (cliProvider cliModel : Option JsString)
    (cliThinking : Option ThinkingLevel) : ResolveCliModelResult δ :=
  match truthy cliModel with
  | none => ⟨none, none, none, none⟩
  | some cliModel =>
    if availableModels.length = 0 then
      ⟨none, none, none, some (js "No models available. " ++
        js "Check your installation or add models to models.json.")⟩
    else
      let given := (truthy cliProvider).bind fun name =>
        truthy (r.canonicalProvider? name availableModels)
      match truthy cliProvider, given with
      | some name, none => ⟨none, none, none, some (js "Unknown provider \"" ++ name ++
          js "\". Use --list-models to see available providers/models.")⟩
      | _, _ =>
        let inferred := if given.isSome then none else
          (splitSlash? cliModel).bind fun split =>
            (truthy (r.canonicalProvider? split.1 availableModels)).map fun provider =>
              (provider, split.2)
        let provider := given.or (inferred.map (·.1))
        match (if provider.isSome then none else r.resolveLiteral? cliModel availableModels) with
        | some result => result
        | none =>
          let pattern := match given, inferred with
            | some provider, _ => r.stripProvider provider cliModel
            | none, some (_, pattern) => pattern
            | none, none => cliModel
          let candidates := match provider with
            | some provider => availableModels.filter (·.provider = provider)
            | none => availableModels
          let parsed := r.parseModelPattern pattern candidates false
          match parsed.model with
          | some model =>
            match (if inferred.isSome then r.rawOverride? cliModel model availableModels
              else none) with
            | some raw => ⟨some raw, none, none, none⟩
            | none => ⟨some model, parsed.thinkingLevel, parsed.warning, none⟩
          | none =>
            match (if inferred.isSome then r.resolveRaw? cliModel availableModels else none) with
            | some result => result
            | none =>
              match provider.bind fun provider =>
                r.resolveCustom? provider pattern cliThinking parsed.warning availableModels with
              | some result => result
              | none =>
                let display := match provider with
                  | some provider => provider ++ js "/" ++ pattern
                  | none => cliModel
                ⟨none, none, parsed.warning, some (js "Model \"" ++ display ++
                  js "\" not found. Use --list-models to see available models.")⟩

/-! ## What a pattern selects -/

/-- The pairs of provider and id are distinct, whatever the case of their letters. -/
def Distinct (models : List (Model δ)) : Prop :=
  models.Pairwise fun a b => ¬ (r.toLowerCase a.provider = r.toLowerCase b.provider ∧
    r.toLowerCase a.id = r.toLowerCase b.id)

/-- What is relied on of `toLowerCase`: a slash stays where it is, and none appears. -/
structure KeepsSlashes (toLowerCase : JsString → JsString) : Prop where
  eq_nil : ∀ text, toLowerCase text = [] ↔ text = []
  slash : ∀ front back,
    toLowerCase (front ++ 0x2F :: back) = toLowerCase front ++ 0x2F :: toLowerCase back
  free : ∀ text, 0x2F ∉ text → 0x2F ∉ toLowerCase text

/-- The texts are the same but for the case of letters. -/
def Recased (a b : JsString) : Prop := r.toLowerCase a = r.toLowerCase b

/-- The trimmed text is `provider/id`. -/
def Canonical (text : JsString) (model : Model δ) : Prop :=
  r.toLowerCase (reference model) = r.toLowerCase text

/-- Provider and id are what is in front of the first slash and behind it, both trimmed. -/
def Parts (text : JsString) (model : Model δ) : Prop :=
  ∃ split ∈ splitSlash? text, (trim split.1 ≠ [] ∧ trim split.2 ≠ []) ∧
    r.toLowerCase model.provider = r.toLowerCase (trim split.1) ∧
      r.toLowerCase model.id = r.toLowerCase (trim split.2)

/-- The id is the text. -/
def Bare (text : JsString) (model : Model δ) : Prop :=
  r.toLowerCase model.id = r.toLowerCase text

/-- The model of the list that a pattern selects: the one that it refers to, in the order of the
three ways to, or the preferred one of those it is a part of. -/
inductive Selects (models : List (Model δ)) (pattern : JsString) (model : Model δ) : Prop
  | canonical (hne : trim pattern ≠ []) (hmem : model ∈ models)
      (hrefers : r.Canonical (trim pattern) model)
  | parts (hne : trim pattern ≠ []) (hmem : model ∈ models)
      (hrefers : r.Parts (trim pattern) model)
      (hcanonical : ∀ other ∈ models, ¬ r.Canonical (trim pattern) other)
  | bare (hne : trim pattern ≠ []) (hmem : model ∈ models) (hrefers : r.Bare (trim pattern) model)
      (hcanonical : ∀ other ∈ models, ¬ r.Canonical (trim pattern) other)
      (hparts : ∀ other ∈ models, ¬ r.Parts (trim pattern) other)
  | similar (hnone : trim pattern ≠ [] → ∀ other ∈ models, ¬ r.Canonical (trim pattern) other ∧
        ¬ r.Parts (trim pattern) other ∧ ¬ r.Bare (trim pattern) other)
      (hpreferred : r.preferred (r.similar pattern models) = some model)

variable {r} {models : List (Model δ)} {model : Model δ}

/-- Of models of which no two match, only the first match is found. -/
theorem only?_filter {P : Model δ → Bool}
    (h : models.Pairwise fun a b => ¬ (P a = true ∧ P b = true)) :
    only? (models.filter P) = (models.find? P).map some := by
  induction models with
  | nil => rfl
  | cons first models ih =>
    obtain ⟨hfirst, hrest⟩ := List.pairwise_cons.mp h
    by_cases hP : P first = true
    · have hnone : models.filter P = [] := by
        rw [List.filter_eq_nil_iff]
        exact fun other hother hPother => hfirst other hother ⟨hP, hPother⟩
      rw [List.filter_cons_of_pos hP, hnone, List.find?_cons_of_pos hP]
      rfl
    · rw [List.filter_cons_of_neg hP, List.find?_cons_of_neg hP]
      exact ih hrest

theorem find?_eq_some_iff {P : Model δ → Bool}
    (h : models.Pairwise fun a b => ¬ (P a = true ∧ P b = true)) :
    models.find? P = some model ↔ model ∈ models ∧ P model = true := by
  refine ⟨fun hfind => ⟨List.mem_of_find?_eq_some hfind, List.find?_some hfind⟩, ?_⟩
  rintro ⟨hmem, hP⟩
  induction models with
  | nil => cases hmem
  | cons first models ih =>
    obtain ⟨hfirst, hrest⟩ := List.pairwise_cons.mp h
    obtain rfl | hmem := List.mem_cons.mp hmem
    · exact List.find?_cons_of_pos hP
    · rw [List.find?_cons_of_neg fun hother => hfirst model hmem ⟨hother, hP⟩]
      exact ih hrest hmem

/-- The models of one provider. -/
def OfProvider (provider : JsString) (models : List (Model δ)) : Prop :=
  ∀ model ∈ models, model.provider = provider

variable {provider : JsString}

/-- No two models of a provider agree in what determines the id. -/
theorem Distinct.pairwise (h : r.Distinct models) (hprovider : OfProvider provider models)
    {P : Model δ → Bool} (hP : ∀ a ∈ models, ∀ b ∈ models, P a = true → P b = true →
      r.toLowerCase a.id = r.toLowerCase b.id) :
    models.Pairwise fun a b => ¬ (P a = true ∧ P b = true) := by
  refine List.Pairwise.imp_of_mem ?_ h
  intro a b ha hb hne hboth
  exact hne ⟨by rw [hprovider a ha, hprovider b hb], hP a ha b hb hboth.1 hboth.2⟩

theorem canonical_id (hlower : KeepsSlashes r.toLowerCase) (hprovider : OfProvider provider models)
    {text : JsString} {a b : Model δ} (ha : a ∈ models) (hb : b ∈ models)
    (hA : r.Canonical text a) (hB : r.Canonical text b) :
    r.toLowerCase a.id = r.toLowerCase b.id := by
  have heq := hA.trans hB.symm
  rw [reference, reference, hprovider a ha, hprovider b hb, hlower.slash, hlower.slash] at heq
  exact (List.cons.inj (List.append_cancel_left heq)).2

theorem parts_id {text : JsString} {a b : Model δ} (hA : r.Parts text a) (hB : r.Parts text b) :
    r.toLowerCase a.id = r.toLowerCase b.id := by
  obtain ⟨split, hsplit, -, -, hid⟩ := hA
  obtain ⟨split', hsplit', -, -, hid'⟩ := hB
  obtain rfl := Option.some.inj (hsplit.symm.trans hsplit')
  exact hid.trans hid'.symm

/-- The matches of provider and id around the first slash, as a filter. -/
theorem partMatches_eq (text : JsString) (models : List (Model δ))
    [∀ model : Model δ, Decidable (r.Parts text model)] :
    r.partMatches text models = models.filter fun model => decide (r.Parts text model) := by
  rw [partMatches]
  cases hsplit : splitSlash? text with
  | none =>
    refine (List.filter_eq_nil_iff.mpr fun model _ hmodel => ?_).symm
    obtain ⟨split, hmem, -⟩ := of_decide_eq_true hmodel
    rw [hsplit] at hmem
    cases hmem
  | some split =>
    dsimp only
    have hparts : ∀ model : Model δ, r.Parts text model ↔
        (trim split.1 ≠ [] ∧ trim split.2 ≠ []) ∧
          r.toLowerCase model.provider = r.toLowerCase (trim split.1) ∧
            r.toLowerCase model.id = r.toLowerCase (trim split.2) := by
      intro model
      rw [Parts, hsplit]
      simp
    by_cases hne : trim split.1 ≠ [] ∧ trim split.2 ≠ []
    · rw [if_pos hne]
      refine List.filter_congr fun model _ => ?_
      rw [decide_eq_decide, hparts model, and_iff_right hne]
    · rw [if_neg hne]
      refine (List.filter_eq_nil_iff.mpr fun model _ hmodel => ?_).symm
      exact hne ((hparts model).mp (of_decide_eq_true hmodel)).1

open Classical in
/-- The exact match is the first that the reference refers to, in one of the three ways. -/
theorem findExact_eq (hlower : KeepsSlashes r.toLowerCase) (hdistinct : r.Distinct models)
    (hprovider : OfProvider provider models) (pattern : JsString) :
    r.findExactModelReferenceMatch pattern models =
      if trim pattern = [] then none
      else (models.find? fun model => decide (r.Canonical (trim pattern) model)).or
        ((models.find? fun model => decide (r.Parts (trim pattern) model)).or
          (models.find? fun model => decide (r.Bare (trim pattern) model))) := by
  have hcanonical : models.Pairwise fun a b =>
      ¬ (decide (r.toLowerCase (reference a) = r.toLowerCase (trim pattern)) = true ∧
        decide (r.toLowerCase (reference b) = r.toLowerCase (trim pattern)) = true) := by
    refine hdistinct.pairwise hprovider fun a ha b hb hA hB => ?_
    have hA' := of_decide_eq_true hA
    have hB' := of_decide_eq_true hB
    exact canonical_id hlower hprovider ha hb hA' hB'
  have hparts : models.Pairwise fun a b => ¬ (decide (r.Parts (trim pattern) a) = true ∧
      decide (r.Parts (trim pattern) b) = true) :=
    hdistinct.pairwise hprovider fun a _ b _ hA hB =>
      parts_id (of_decide_eq_true hA) (of_decide_eq_true hB)
  have hbare : models.Pairwise fun a b =>
      ¬ (decide (r.toLowerCase a.id = r.toLowerCase (trim pattern)) = true ∧
        decide (r.toLowerCase b.id = r.toLowerCase (trim pattern)) = true) :=
    hdistinct.pairwise hprovider fun a _ b _ hA hB =>
      (of_decide_eq_true hA).trans (of_decide_eq_true hB).symm
  rw [findExactModelReferenceMatch]
  dsimp only
  by_cases hempty : trim pattern = []
  · rw [if_pos hempty, if_pos hempty]
  · rw [if_neg hempty, if_neg hempty, only?_filter hcanonical, partMatches_eq, only?_filter hparts,
      only?_filter hbare]
    have hsame : (models.find? fun model => decide (r.Canonical (trim pattern) model)) =
        models.find? fun model =>
          decide (r.toLowerCase (reference model) = r.toLowerCase (trim pattern)) :=
      congrArg (models.find? ·) (funext fun model => by rw [decide_eq_decide]; rfl)
    have hsame' : (models.find? fun model => decide (r.Bare (trim pattern) model)) =
        models.find? fun model => decide (r.toLowerCase model.id = r.toLowerCase (trim pattern)) :=
      congrArg (models.find? ·) (funext fun model => by rw [decide_eq_decide]; rfl)
    rw [hsame, hsame']
    cases models.find? fun model =>
        decide (r.toLowerCase (reference model) = r.toLowerCase (trim pattern)) with
    | some found => rfl
    | none =>
      cases models.find? fun model => decide (r.Parts (trim pattern) model) with
      | some found => rfl
      | none =>
        cases models.find? fun model =>
          decide (r.toLowerCase model.id = r.toLowerCase (trim pattern)) <;> rfl

open Classical in
/-- A pattern matches the model that it selects. -/
theorem tryMatchModel_eq_some_iff (hlower : KeepsSlashes r.toLowerCase)
    (hdistinct : r.Distinct models) (hprovider : OfProvider provider models)
    (pattern : JsString) (model : Model δ) :
    r.tryMatchModel pattern models = some model ↔ r.Selects models pattern model := by
  have hcanonical := @find?_eq_some_iff _ models model
    (fun model => decide (r.Canonical (trim pattern) model))
    (hdistinct.pairwise hprovider fun a ha b hb hA hB =>
      canonical_id hlower hprovider ha hb (of_decide_eq_true hA) (of_decide_eq_true hB))
  have hparts := @find?_eq_some_iff _ models model
    (fun model => decide (r.Parts (trim pattern) model))
    (hdistinct.pairwise hprovider fun a _ b _ hA hB =>
      parts_id (of_decide_eq_true hA) (of_decide_eq_true hB))
  have hbare := @find?_eq_some_iff _ models model
    (fun model => decide (r.Bare (trim pattern) model))
    (hdistinct.pairwise hprovider fun a _ b _ hA hB =>
      (of_decide_eq_true hA).trans (of_decide_eq_true hB).symm)
  have hsimilar : (if (r.similar pattern models).length = 0 then none
      else r.preferred (r.similar pattern models)) = r.preferred (r.similar pattern models) := by
    split
    · rename_i hlength
      rw [List.length_eq_zero_iff.mp hlength]
      simp [preferred, highest]
    · rfl
  have hexact := findExact_eq hlower hdistinct hprovider pattern
  have hnone : r.findExactModelReferenceMatch pattern models = none ↔
      (trim pattern ≠ [] → ∀ other ∈ models, ¬ r.Canonical (trim pattern) other ∧
        ¬ r.Parts (trim pattern) other ∧ ¬ r.Bare (trim pattern) other) := by
    rw [hexact]
    by_cases hempty : trim pattern = []
    · rw [if_pos hempty]
      exact iff_of_true rfl fun h => absurd hempty h
    · rw [if_neg hempty, Option.or_eq_none_iff, Option.or_eq_none_iff, List.find?_eq_none,
        List.find?_eq_none, List.find?_eq_none]
      simp only [decide_eq_true_eq]
      constructor
      · rintro ⟨h1, h2, h3⟩ - other hother
        exact ⟨h1 other hother, h2 other hother, h3 other hother⟩
      · intro h
        exact ⟨fun other hother => (h hempty other hother).1,
          fun other hother => (h hempty other hother).2.1,
          fun other hother => (h hempty other hother).2.2⟩
  rw [tryMatchModel, hsimilar]
  constructor
  · intro h
    cases hfound : r.findExactModelReferenceMatch pattern models with
    | none =>
      rw [hfound] at h
      exact .similar (hnone.mp hfound) h
    | some found =>
      rw [hfound] at h
      obtain rfl := Option.some.inj h
      rw [hexact] at hfound
      obtain ⟨hempty, hfound⟩ := Option.ite_none_left_eq_some.mp hfound
      rw [Option.or_eq_some_iff, Option.or_eq_some_iff] at hfound
      obtain hfound | ⟨hone, hfound | ⟨htwo, hfound⟩⟩ := hfound
      · obtain ⟨hmem, hrefers⟩ := hcanonical.mp hfound
        exact .canonical hempty hmem (of_decide_eq_true hrefers)
      · obtain ⟨hmem, hrefers⟩ := hparts.mp hfound
        rw [List.find?_eq_none] at hone
        exact .parts hempty hmem (of_decide_eq_true hrefers) (by simpa using hone)
      · obtain ⟨hmem, hrefers⟩ := hbare.mp hfound
        rw [List.find?_eq_none] at hone htwo
        exact .bare hempty hmem (of_decide_eq_true hrefers) (by simpa using hone)
          (by simpa using htwo)
  · intro h
    cases h with
    | canonical hne hmem hrefers =>
      have hfound : r.findExactModelReferenceMatch pattern models = some model := by
        rw [hexact, if_neg hne, Option.or_eq_some_iff]
        exact .inl (hcanonical.mpr ⟨hmem, decide_eq_true hrefers⟩)
      rw [hfound]
    | parts hne hmem hrefers hno =>
      have hfound : r.findExactModelReferenceMatch pattern models = some model := by
        rw [hexact, if_neg hne, Option.or_eq_some_iff, Option.or_eq_some_iff]
        exact .inr ⟨List.find?_eq_none.mpr (by simpa using hno),
          .inl (hparts.mpr ⟨hmem, decide_eq_true hrefers⟩)⟩
      rw [hfound]
    | bare hne hmem hrefers hno hno' =>
      have hfound : r.findExactModelReferenceMatch pattern models = some model := by
        rw [hexact, if_neg hne, Option.or_eq_some_iff, Option.or_eq_some_iff]
        exact .inr ⟨List.find?_eq_none.mpr (by simpa using hno),
          .inr ⟨List.find?_eq_none.mpr (by simpa using hno'),
            hbare.mpr ⟨hmem, decide_eq_true hrefers⟩⟩⟩
      rw [hfound]
    | similar hno hpreferred =>
      rw [hnone.mpr hno]
      exact hpreferred

theorem mem_of_selects {pattern : JsString} (h : r.Selects models pattern model) :
    model ∈ models := by
  cases h with
  | canonical _ hmem | parts _ hmem | bare _ hmem => exact hmem
  | similar _ hpreferred =>
    rw [preferred] at hpreferred
    have hsorted : ∀ matching : List (Model δ), r.highest matching = some model →
        model ∈ matching := fun matching h => by
      rw [highest] at h
      exact List.mem_mergeSort.mp (List.mem_of_head? h)
    split at hpreferred
    · exact List.mem_of_mem_filter (List.mem_of_mem_filter (hsorted _ hpreferred))
    · exact List.mem_of_mem_filter (List.mem_of_mem_filter (hsorted _ hpreferred))

/-- Where a model has the pattern as its id, up to case, the pattern selects some model. -/
theorem exists_selects (hmem : model ∈ models) {pattern : JsString}
    (hid : r.toLowerCase pattern = r.toLowerCase model.id) :
    ∃ selected, r.tryMatchModel pattern models = some selected := by
  have hsimilar : model ∈ r.similar pattern models :=
    List.mem_filter.mpr ⟨hmem, decide_eq_true (.inl (hid ▸ List.infix_rfl))⟩
  rw [tryMatchModel]
  cases r.findExactModelReferenceMatch pattern models with
  | some found => exact ⟨found, rfl⟩
  | none =>
    have hne : r.similar pattern models ≠ [] := List.ne_nil_of_mem hsimilar
    have hhighest : ∀ matching : List (Model δ), matching ≠ [] →
        ∃ selected, r.highest matching = some selected := by
      intro matching hmatching
      cases hsorted : matching.mergeSort
          fun (a b : Model δ) => r.localeCompare b.id a.id ≤ 0 with
      | nil =>
        have hlength := @List.length_mergeSort _
          (fun (a b : Model δ) => r.localeCompare b.id a.id ≤ 0) matching
        rw [hsorted] at hlength
        exact absurd (List.length_eq_zero_iff.mp hlength.symm) hmatching
      | cons first rest => exact ⟨first, by rw [highest, hsorted]; rfl⟩
    dsimp only
    rw [if_neg (fun h => hne (List.length_eq_zero_iff.mp h)), preferred]
    split
    · rename_i hpos
      exact hhighest _ (List.length_pos_iff.mp hpos)
    · rename_i hpos
      refine hhighest _ fun hdated => ?_
      have haliases := List.length_eq_zero_iff.mp (Nat.eq_zero_of_not_pos hpos)
      rw [List.filter_eq_nil_iff] at haliases hdated
      have := haliases model hsimilar
      have := hdated model hsimilar
      simp_all

/-! ## Strict patterns -/

theorem parseModelPattern_of_some {pattern : JsString} {found : Model δ}
    (h : r.tryMatchModel pattern models = some found) (allow : Bool) :
    r.parseModelPattern pattern models allow = ⟨some found, none, none⟩ := by
  unfold parseModelPattern
  rw [h]

theorem parseModelPattern_of_split {pattern front suffix : JsString} {level : ThinkingLevel}
    (h : r.tryMatchModel pattern models = none)
    (hsplit : splitLastColon? pattern = some (front, suffix))
    (hlevel : thinkingLevel? suffix = some level) (allow : Bool) :
    r.parseModelPattern pattern models allow =
      if (r.parseModelPattern front models allow).model.isSome then
        ⟨(r.parseModelPattern front models allow).model,
          if (r.parseModelPattern front models allow).warning.isSome then none else some level,
          (r.parseModelPattern front models allow).warning⟩
      else r.parseModelPattern front models allow := by
  conv_lhs => unfold parseModelPattern
  rw [h]
  dsimp only
  split
  · rename_i hnone
    rw [hsplit] at hnone
    cases hnone
  · rename_i front' suffix' hsome
    obtain ⟨rfl, rfl⟩ := Prod.mk.inj (Option.some.inj (hsplit.symm.trans hsome))
    rw [hlevel]

theorem parseModelPattern_of_none {pattern : JsString} (h : r.tryMatchModel pattern models = none)
    (hsplit : ∀ split ∈ splitLastColon? pattern, thinkingLevel? split.2 = none) :
    r.parseModelPattern pattern models false = ⟨none, none, none⟩ := by
  unfold parseModelPattern
  rw [h]
  dsimp only
  split
  · rfl
  · rename_i front suffix hsome
    rw [hsplit _ hsome]
    rfl

/-- A strict pattern that matches no model finds one only with a level, and warns of nothing. -/
theorem parseModelPattern_strict (pattern : JsString) :
    (r.parseModelPattern pattern models false).warning = none ∧
      ((r.parseModelPattern pattern models false).model ≠ none →
        (∃ found, r.tryMatchModel pattern models = some found) ∨
          (r.parseModelPattern pattern models false).thinkingLevel ≠ none) ∧
      ∀ found, (r.parseModelPattern pattern models false).model = some found →
        ∃ part, r.tryMatchModel part models = some found := by
  induction hn : pattern.length using Nat.strong_induction_on generalizing pattern with
  | _ n ih =>
    subst hn
    cases hmatch : r.tryMatchModel pattern models with
    | some found =>
      rw [parseModelPattern_of_some hmatch]
      exact ⟨rfl, fun _ => .inl ⟨found, rfl⟩, fun other hother => ⟨pattern, hmatch.trans hother⟩⟩
    | none =>
      by_cases hlevels : ∀ split ∈ splitLastColon? pattern, thinkingLevel? split.2 = none
      · rw [parseModelPattern_of_none hmatch hlevels]
        exact ⟨rfl, fun h => absurd rfl h, nofun⟩
      · push Not at hlevels
        obtain ⟨⟨front, suffix⟩, hsplit, hlevel⟩ := hlevels
        obtain ⟨level, hlevel⟩ := Option.ne_none_iff_exists'.mp hlevel
        obtain ⟨hwarning, -, hfound⟩ := ih _ (splitLastColon?_length hsplit) front rfl
        rw [parseModelPattern_of_split hmatch hsplit hlevel]
        split
        · rw [hwarning]
          exact ⟨rfl, fun _ => .inr nofun, hfound⟩
        · rename_i hnone
          refine ⟨hwarning, fun h => absurd (Option.isSome_iff_ne_none.mpr h) hnone, hfound⟩

/-! ## The two ways to a provider -/

theorem truthy_some {text : JsString} (h : text ≠ []) : truthy (some text) = some text := by
  rw [truthy, Option.filter_some, if_pos (decide_eq_true h)]

theorem splitSlash?_append {front : JsString} (h : 0x2F ∉ front) (back : JsString) :
    splitSlash? (front ++ 0x2F :: back) = some (front, back) := by
  induction front with
  | nil => rfl
  | cons u front ih =>
    rw [List.mem_cons, not_or] at h
    rw [List.cons_append, splitSlash?, if_neg (Ne.symm h.1), ih h.2]
    rfl

/-- The models that a pattern is matched with. -/
def candidates (provider : JsString) (models : List (Model δ)) : List (Model δ) :=
  models.filter fun model => model.provider = provider

theorem ofProvider_candidates (provider : JsString) (models : List (Model δ)) :
    OfProvider provider (candidates provider models) := fun _ hmem =>
  of_decide_eq_true (List.mem_filter.mp hmem).2

theorem models_ne_nil {name : JsString} (h : r.canonicalProvider? name models = some provider) :
    models.length ≠ 0 := by
  intro hlength
  rw [List.length_eq_zero_iff.mp hlength] at h
  cases h

variable {name pattern : JsString} {cliThinking : Option ThinkingLevel}

/-- A provider that is inferred and has authentication. -/
theorem resolve_inferred (hname : 0x2F ∉ name)
    (hcanonical : r.canonicalProvider? name models = some provider) (hne : provider ≠ [])
    (hauth : r.hasConfiguredAuth provider = true) {found : Model δ} {level : Option ThinkingLevel}
    {warning : Option JsString}
    (hparsed : r.parseModelPattern pattern (candidates provider models) false =
      ⟨some found, level, warning⟩) (hfound : found.provider = provider) :
    r.resolveCliModel models none (some (name ++ 0x2F :: pattern)) cliThinking =
      ⟨some found, level, warning, none⟩ := by
  have hmodels := models_ne_nil hcanonical
  have hraw : ∀ cliModel, r.rawOverride? cliModel found models = none := by
    intro cliModel
    rw [rawOverride?, hfound, hauth]
    simp
  have hnone : truthy none = none := rfl
  rw [resolveCliModel, truthy_some (by simp)]
  dsimp only
  rw [if_neg hmodels]
  simp only [hnone, splitSlash?_append hname, hcanonical, truthy_some hne, Option.bind_none,
    Option.bind_some, Option.isSome_none, Option.isSome_some, Option.map_some, Option.none_or,
    if_true, Bool.false_eq_true, if_false]
  rw [candidates] at hparsed
  rw [hparsed]
  simp only [hraw]

/-- The given provider strips its name and matches what is left; a text that matches nothing is
the id of a custom model. -/
theorem resolve_given {cliProvider cliModel : JsString} (hcliProvider : cliProvider ≠ [])
    (hcliModel : cliModel ≠ [])
    (hcanonical : r.canonicalProvider? cliProvider models = some provider) (hne : provider ≠ []) :
    let parsed := r.parseModelPattern (r.stripProvider provider cliModel)
      (candidates provider models) false
    r.resolveCliModel models (some cliProvider) (some cliModel) cliThinking =
      match parsed.model with
      | some found => ⟨some found, parsed.thinkingLevel, parsed.warning, none⟩
      | none => (r.resolveCustom? provider (r.stripProvider provider cliModel) cliThinking
          parsed.warning models).getD ⟨none, none, parsed.warning, some (js "Model \"" ++
            (provider ++ js "/" ++ r.stripProvider provider cliModel) ++
            js "\" not found. Use --list-models to see available models.")⟩ := by
  have hmodels := models_ne_nil hcanonical
  dsimp only
  rw [resolveCliModel, truthy_some hcliModel]
  dsimp only
  rw [if_neg hmodels]
  simp only [truthy_some hcliProvider, hcanonical, truthy_some hne, Option.bind_some,
    Option.isSome_some, if_true, Option.some_or, Option.isSome_none, Bool.false_eq_true, if_false]
  rw [show models.filter (fun model => decide (model.provider = provider)) =
    candidates provider models from rfl]
  cases (r.parseModelPattern (r.stripProvider provider cliModel)
    (candidates provider models) false).model with
  | some found => rfl
  | none =>
    cases r.resolveCustom? provider (r.stripProvider provider cliModel) cliThinking
      (r.parseModelPattern (r.stripProvider provider cliModel)
        (candidates provider models) false).warning models <;> rfl

theorem buildFallbackModel_id {modelId : JsString} {fallback : Model δ}
    (h : r.buildFallbackModel provider modelId models = some fallback) :
    fallback.provider = provider ∧ fallback.id = modelId := by
  rw [buildFallbackModel, Option.map_eq_some_iff] at h
  obtain ⟨base, hbase, rfl⟩ := h
  refine ⟨?_, rfl⟩
  have hmem : base ∈ models.filter fun model => model.provider = provider := by
    cases hdefault : r.defaultModelPerProvider provider with
    | none =>
      rw [hdefault] at hbase
      exact List.mem_of_head? hbase
    | some defaultId =>
      rw [hdefault] at hbase
      obtain hfirst | ⟨-, hfirst⟩ := Option.or_eq_some_iff.mp hbase
      · exact List.mem_of_find?_eq_some hfirst
      · exact List.mem_of_head? hfirst
  exact of_decide_eq_true (List.mem_filter.mp hmem).2

/-- A custom model without a level has the pattern as its id. -/
theorem resolveCustom?_id {warning : Option JsString} {result : ResolveCliModelResult δ}
    {custom : Model δ}
    (h : r.resolveCustom? provider pattern cliThinking warning models = some result)
    (hmodel : result.model = some custom) :
    custom.provider = provider ∧ (result.thinkingLevel = none → custom.id = pattern) := by
  have hreasoning : ∀ {fallback : Model δ} {P : Prop} [Decidable P] {c : Model δ},
      some (if P then { fallback with reasoning := true } else fallback) = some c →
        c.provider = fallback.provider ∧ c.id = fallback.id := by
    intro fallback P _ c hc
    split at hc <;> obtain rfl := Option.some.inj hc <;> exact ⟨rfl, rfl⟩
  rw [resolveCustom?] at h
  dsimp only at h
  obtain ⟨fallback, hfallback, rfl⟩ := Option.map_eq_some_iff.mp h
  obtain ⟨hprovider, hid⟩ := buildFallbackModel_id hfallback
  obtain ⟨hsame, hsame'⟩ := hreasoning hmodel
  refine ⟨hsame.trans hprovider, fun hlevel => (hsame'.trans hid).trans ?_⟩
  cases hthinking : cliThinking with
  | some level => rfl
  | none =>
    rw [hthinking] at hlevel
    cases hsplit : splitLastColon? pattern with
    | none => rfl
    | some split =>
      rw [hsplit] at hlevel
      dsimp only [Option.isSome_none] at hlevel ⊢
      cases hsuffix : thinkingLevel? split.2 with
      | none => rfl
      | some level =>
        rw [hsuffix] at hlevel
        cases hlevel

/-- The result is the model, without an error. -/
structure Returns (result : ResolveCliModelResult δ) (model : Model δ)
    (level : Option ThinkingLevel) : Prop where
  model : result.model = some model
  error : result.error = none
  thinkingLevel : result.thinkingLevel = level

/-- With its provider given, a model is returned if and only if its pattern selects it. -/
theorem returns_given_iff {cliProvider cliModel : JsString} (hmem : model ∈ models)
    (hcliProvider : cliProvider ≠ []) (hcliModel : cliModel ≠ [])
    (hcanonical : r.canonicalProvider? cliProvider models = some provider) (hne : provider ≠ []) :
    Returns (r.resolveCliModel models (some cliProvider) (some cliModel) cliThinking) model none ↔
      r.tryMatchModel (r.stripProvider provider cliModel) (candidates provider models) =
        some model := by
  rw [resolve_given hcliProvider hcliModel hcanonical hne]
  set pattern := r.stripProvider provider cliModel
  cases hmatch : r.tryMatchModel pattern (candidates provider models) with
  | some found =>
    rw [parseModelPattern_of_some hmatch]
    exact ⟨fun h => h.model, fun h => ⟨h, rfl, rfl⟩⟩
  | none =>
    refine iff_of_false (fun h => ?_) nofun
    obtain ⟨-, hlevel, -⟩ := @parseModelPattern_strict _ r (candidates provider models) pattern
    cases hparsed : (r.parseModelPattern pattern (candidates provider models) false).model with
    | some found =>
      rw [hparsed] at h
      obtain ⟨other, hother⟩ | hsome := hlevel (by rw [hparsed]; nofun)
      · rw [hmatch] at hother
        cases hother
      · exact hsome h.thinkingLevel
    | none =>
      rw [hparsed] at h
      dsimp only at h
      cases hcustom : r.resolveCustom? provider pattern cliThinking
          (r.parseModelPattern pattern (candidates provider models) false).warning models with
      | none =>
        rw [hcustom] at h
        cases h.error
      | some result =>
        rw [hcustom] at h
        -- A custom model with the id of a listed one: the pattern would have matched it.
        obtain ⟨hprovider, hid⟩ := resolveCustom?_id hcustom h.model
        have hcandidate : model ∈ candidates provider models :=
          List.mem_filter.mpr ⟨hmem, decide_eq_true hprovider⟩
        obtain ⟨selected, hselected⟩ := exists_selects hcandidate
          (congrArg r.toLowerCase (hid h.thinkingLevel).symm)
        rw [hmatch] at hselected
        cases hselected

/-! ## Spellings of a reference -/

theorem Recased.slash_free (hlower : KeepsSlashes r.toLowerCase) {a b : JsString}
    (h : r.Recased a b) (hb : 0x2F ∉ b) : 0x2F ∉ a := by
  intro ha
  obtain ⟨front, back, rfl⟩ := List.append_of_mem ha
  refine hlower.free b hb ?_
  rw [← show r.toLowerCase (front ++ 0x2F :: back) = r.toLowerCase b from h, hlower.slash]
  exact List.mem_append_right _ List.mem_cons_self

theorem Recased.ne_nil (hlower : KeepsSlashes r.toLowerCase) {a b : JsString}
    (h : r.Recased a b) (hb : b ≠ []) : a ≠ [] := fun ha =>
  hb ((hlower.eq_nil b).mp (h ▸ (hlower.eq_nil a).mpr ha))

theorem Recased.canonicalProvider? {a b : JsString} (h : r.Recased a b) :
    r.canonicalProvider? a models = r.canonicalProvider? b models := by
  rw [Resolver.canonicalProvider?, Resolver.canonicalProvider?, h]

/-- The name of the provider of a model stands for a name that differs from it only in case. -/
theorem exists_canonicalProvider (hmem : model ∈ models) :
    ∃ provider, r.canonicalProvider? model.provider models = some provider ∧
      r.Recased provider model.provider := by
  have hmem' : model.provider ∈ (models.map (·.provider)).reverse :=
    List.mem_reverse.mpr (List.mem_map_of_mem hmem)
  cases hfind : (models.map (·.provider)).reverse.find?
      fun provider => r.toLowerCase provider = r.toLowerCase model.provider with
  | none => exact absurd (decide_eq_true rfl) (List.find?_eq_none.mp hfind _ hmem')
  | some provider =>
    have hsame : r.toLowerCase provider = r.toLowerCase model.provider := by
      simpa using List.find?_some hfind
    exact ⟨provider, hfind, hsame⟩

theorem stripProvider_reference (hlower : KeepsSlashes r.toLowerCase) {a : JsString}
    (h : r.Recased a provider) (b : JsString) :
    r.stripProvider provider (a ++ 0x2F :: b) =
      (a ++ 0x2F :: b).drop (provider.length + 1) := by
  rw [stripProvider, if_pos, List.length_append, List.length_singleton]
  have hnil : r.toLowerCase [] = [] := (hlower.eq_nil []).mpr rfl
  rw [hlower.slash, hlower.slash, hnil, h]
  exact (List.prefix_append_right_inj _).mpr (List.cons_prefix_cons.mpr ⟨rfl, List.nil_prefix⟩)

theorem thinkingLevel?_text (level : ThinkingLevel) : thinkingLevel? level.text = some level := by
  cases level <;> decide

theorem splitLastColon?_append {suffix : JsString} (h : 0x3A ∉ suffix) (front : JsString) :
    splitLastColon? (front ++ 0x3A :: suffix) = some (front, suffix) := by
  have hnone : splitLastColon? suffix = none := by
    induction suffix with
    | nil => rfl
    | cons u suffix ih =>
      rw [List.mem_cons, not_or] at h
      rw [splitLastColon?, ih h.2]
      exact if_neg (Ne.symm h.1)
  induction front with
  | nil => rw [List.nil_append, splitLastColon?, hnone]; rfl
  | cons u front ih => rw [List.cons_append, splitLastColon?, ih]

theorem colon_free (level : ThinkingLevel) : 0x3A ∉ level.text := by
  cases level <;> decide

/-- The pattern without a level is matched where the one with it is not. -/
theorem parseModelPattern_level {found : Model δ} (level : ThinkingLevel)
    (h : r.tryMatchModel (pattern ++ 0x3A :: level.text) models = none)
    (hfound : r.tryMatchModel pattern models = some found) :
    r.parseModelPattern (pattern ++ 0x3A :: level.text) models false =
      ⟨some found, some level, none⟩ := by
  rw [parseModelPattern_of_split h (splitLastColon?_append (colon_free level) pattern)
    (thinkingLevel?_text level), parseModelPattern_of_some hfound]
  rfl

/-! ## References that resolve -/

/-- No id and no name contains the text, whatever the case of their letters. -/
def Unlisted (r : Resolver) (text : JsString) (models : List (Model δ)) : Prop :=
  ∀ other ∈ models, ¬ r.toLowerCase text <:+: r.toLowerCase other.id ∧
    ∀ name ∈ other.name, ¬ r.toLowerCase text <:+: r.toLowerCase name

/-- Every reference to the model, in any case of its letters, resolves to it. -/
structure Resolves (r : Resolver) (models : List (Model δ)) (model : Model δ) : Prop where
  inferred : ∀ a b cliThinking, r.Recased a model.provider → r.Recased b model.id →
    Returns (r.resolveCliModel models none (some (a ++ 0x2F :: b)) cliThinking) model none
  given : ∀ a b cliThinking, r.Recased a model.provider → r.Recased b model.id →
    Returns (r.resolveCliModel models (some a) (some b) cliThinking) model none
  both : ∀ a a' b cliThinking, r.Recased a model.provider → r.Recased a' model.provider →
    r.Recased b model.id →
      Returns (r.resolveCliModel models (some a) (some (a' ++ 0x2F :: b)) cliThinking) model none
  level : ∀ a b level cliThinking, r.Recased a model.provider → r.Recased b model.id →
    r.Unlisted (b ++ 0x3A :: level.text) (candidates model.provider models) →
      Returns (r.resolveCliModel models none (some (a ++ 0x2F :: (b ++ 0x3A :: level.text)))
        cliThinking) model (some level)

/-- Among the models of its provider, whose name no later model spells in another case, the model
is the one that each spelling of its id selects: the whole of it, what is left of it without a
leading name of the provider, and what is behind as many characters of the reference as the name
of the provider has. No model is selected by an id with a level that none contains. -/
structure Unmistaken (r : Resolver) (models : List (Model δ)) (model : Model δ) : Prop where
  provider : model.provider ≠ []
  id : model.id ≠ []
  canonical : r.canonicalProvider? model.provider models = some model.provider
  whole : ∀ b, r.Recased b model.id → r.Selects (candidates model.provider models) b model
  stripped : ∀ b, r.Recased b model.id →
    r.Selects (candidates model.provider models) (r.stripProvider model.provider b) model
  behind : ∀ a b, r.Recased a model.provider → r.Recased b model.id →
    r.Selects (candidates model.provider models)
      ((a ++ 0x2F :: b).drop (model.provider.length + 1)) model
  level : ∀ b (level : ThinkingLevel), r.Recased b model.id →
    r.Unlisted (b ++ 0x3A :: level.text) (candidates model.provider models) →
      ∀ other, ¬ r.Selects (candidates model.provider models) (b ++ 0x3A :: level.text) other

/-- The references to a model resolve to it, if and only if no other is read from them. -/
theorem resolves_iff (hlower : KeepsSlashes r.toLowerCase) (hdistinct : r.Distinct models)
    (hslash : ∀ other ∈ models, 0x2F ∉ other.provider) (hmem : model ∈ models)
    (hauth : r.hasConfiguredAuth model.provider = true) :
    (model.provider ≠ [] ∧ r.Resolves models model) ↔ r.Unmistaken models model := by
  have hcandidate : model ∈ candidates model.provider models :=
    List.mem_filter.mpr ⟨hmem, decide_eq_true rfl⟩
  have hselects : ∀ pattern other, r.tryMatchModel pattern (candidates model.provider models) =
      some other ↔ r.Selects (candidates model.provider models) pattern other :=
    tryMatchModel_eq_some_iff hlower (List.Pairwise.filter _ hdistinct)
      (ofProvider_candidates model.provider models)
  have hfree : ∀ {a}, r.Recased a model.provider → 0x2F ∉ a :=
    fun ha => ha.slash_free hlower (hslash model hmem)
  -- A pattern behind an inferred provider that matches a model returns it.
  have hinferred : ∀ {a b cliThinking found}, r.Recased a model.provider →
      model.provider ≠ [] →
      r.canonicalProvider? model.provider models = some model.provider →
      r.tryMatchModel b (candidates model.provider models) = some found →
      r.resolveCliModel models none (some (a ++ 0x2F :: b)) cliThinking =
        ⟨some found, none, none, none⟩ := by
    intro a b cliThinking found ha hne hcanonical hfound
    have hcandidate' := mem_of_selects ((hselects b found).mp hfound)
    exact resolve_inferred (hfree ha) (ha.canonicalProvider?.trans hcanonical) hne hauth
      (parseModelPattern_of_some hfound false) (ofProvider_candidates _ _ _ hcandidate')
  constructor
  · rintro ⟨hprovider, hresolves⟩
    have hid : model.id ≠ [] := by
      intro hid
      have hnone := (hresolves.given model.provider [] none rfl (congrArg _ hid.symm)).model
      cases hnone
    obtain ⟨provider, hsome, hrecased⟩ := exists_canonicalProvider (r := r) hmem
    have hcanonical : r.canonicalProvider? model.provider models = some model.provider := by
      have hreturns := (returns_given_iff hmem hprovider hid hsome
        (hrecased.ne_nil hlower hprovider)).mp (hresolves.given _ _ none rfl rfl)
      have hmem' := mem_of_selects ((tryMatchModel_eq_some_iff hlower
        (List.Pairwise.filter _ hdistinct) (ofProvider_candidates provider models) _ _).mp
          hreturns)
      rw [hsome, ofProvider_candidates _ _ _ hmem']
    refine ⟨hprovider, hid, hcanonical, fun b hb => ?_, fun b hb => ?_, fun a b ha hb => ?_,
      fun b level hb hunlisted other hother => ?_⟩
    · obtain ⟨found, hfound⟩ := exists_selects hcandidate hb
      have hreturns := (hresolves.inferred model.provider b none rfl hb).model
      rw [hinferred rfl hprovider hcanonical hfound] at hreturns
      exact (hselects b model).mp (hfound.trans hreturns)
    · exact (hselects _ model).mp ((returns_given_iff hmem hprovider (hb.ne_nil hlower hid)
        hcanonical hprovider).mp (hresolves.given _ b none rfl hb))
    · rw [← stripProvider_reference hlower ha b]
      exact (hselects _ model).mp ((returns_given_iff hmem hprovider (by simp)
        hcanonical hprovider).mp (hresolves.both _ a b none rfl ha hb))
    · have hreturns := (hresolves.level model.provider b level none rfl hb hunlisted).thinkingLevel
      rw [hinferred rfl hprovider hcanonical ((hselects _ other).mpr hother)] at hreturns
      cases hreturns
  · intro h
    refine ⟨h.provider, fun a b cliThinking ha hb => ?_, fun a b cliThinking ha hb => ?_,
      fun a a' b cliThinking ha ha' hb => ?_, fun a b level cliThinking ha hb hunlisted => ?_⟩
    · rw [hinferred ha h.provider h.canonical ((hselects b model).mpr (h.whole b hb))]
      exact ⟨rfl, rfl, rfl⟩
    · exact (returns_given_iff hmem (ha.ne_nil hlower h.provider) (hb.ne_nil hlower h.id)
        (ha.canonicalProvider?.trans h.canonical) h.provider).mpr
          ((hselects _ model).mpr (h.stripped b hb))
    · refine (returns_given_iff hmem (ha.ne_nil hlower h.provider) (by simp)
        (ha.canonicalProvider?.trans h.canonical) h.provider).mpr ((hselects _ model).mpr ?_)
      rw [stripProvider_reference hlower ha' b]
      exact h.behind a' b ha' hb
    · have hnone : r.tryMatchModel (b ++ 0x3A :: level.text) (candidates model.provider models) =
          none := by
        cases hmatch : r.tryMatchModel (b ++ 0x3A :: level.text)
          (candidates model.provider models) with
        | none => rfl
        | some other =>
          exact absurd ((hselects _ other).mp hmatch) (h.level b level hb hunlisted other)
      rw [resolve_inferred (hfree ha) (ha.canonicalProvider?.trans h.canonical) h.provider hauth
        (parseModelPattern_level level hnone ((hselects b model).mpr (h.whole b hb))) rfl]
      exact ⟨rfl, rfl, rfl⟩

section Instances

/-- `toLowerCase` of a letter of ASCII. -/
def lowerUnit (u : UInt16) : UInt16 := if 0x41 ≤ u ∧ u ≤ 0x5A then u + 0x20 else u

def plain : Resolver where
  toLowerCase := List.map lowerUnit
  localeCompare := fun a b => if a < b then -1 else if b < a then 1 else 0
  defaultModelPerProvider := fun _ => none
  hasConfiguredAuth := fun _ => true

theorem plain_keepsSlashes : KeepsSlashes plain.toLowerCase where
  eq_nil := fun _ => List.map_eq_nil_iff
  slash := fun _ _ => List.map_append
  free := by
    intro text hfree hmem
    obtain ⟨u, hu, hlower⟩ := List.mem_map.mp hmem
    rw [lowerUnit] at hlower
    split at hlower
    · rename_i hrange
      have hlo := UInt16.le_iff_toNat_le.mp hrange.1
      have hhi := UInt16.le_iff_toNat_le.mp hrange.2
      have heq := congrArg UInt16.toNat hlower
      rw [UInt16.toNat_add] at heq
      simp only [UInt16.reduceToNat] at hlo hhi heq
      omega
    · exact hfree (hlower ▸ hu)

/-- An id that starts with the name of its provider, and what is behind it. -/
def nested : Model Unit := ⟨js "p", js "p/x", none, false, ()⟩
def inner : Model Unit := ⟨js "p", js "x", none, false, ()⟩

/-- Behind the name of the provider stands the id of the other model. -/
theorem resolves_iff_nested :
    ¬ (nested.provider ≠ [] ∧ plain.Resolves [nested, inner] nested) := by
  intro h
  have hdistinct : plain.Distinct [nested, inner] := by
    rw [Distinct]
    decide
  have hselects := ((resolves_iff plain_keepsSlashes hdistinct (by decide) List.mem_cons_self
    rfl).mp h).stripped (js "p/x") rfl
  have hfound := (tryMatchModel_eq_some_iff plain_keepsSlashes (List.Pairwise.filter _ hdistinct)
    (ofProvider_candidates (js "p") [nested, inner]) _ _).mpr hselects
  revert hfound
  decide

/-- The reference to the nested model resolves to the inner one. -/
theorem nested_not_resolves : KeepsSlashes plain.toLowerCase ∧ plain.Distinct [nested, inner] ∧
    (∀ other ∈ [nested, inner], 0x2F ∉ other.provider) ∧
    plain.hasConfiguredAuth nested.provider = true ∧ ¬ plain.Resolves [nested, inner] nested := by
  refine ⟨plain_keepsSlashes, by rw [Distinct]; decide, by decide, rfl, fun h => ?_⟩
  have hfound : plain.tryMatchModel (js "p/x") (candidates (js "p") [nested, inner]) =
      some inner := by decide
  have hreturns := (h.inferred (js "p") (js "p/x") none rfl rfl).model
  have hcanonical : plain.canonicalProvider? (js "p") [nested, inner] = some (js "p") := by decide
  rw [resolve_inferred (by decide) hcanonical (by decide) rfl
    (parseModelPattern_of_some hfound false) rfl] at hreturns
  revert hreturns
  decide

end Instances

end Resolver

end PiMono.CodingAgent.ModelResolver
