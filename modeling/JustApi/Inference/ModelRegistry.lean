import Mathlib.Data.List.AList
import Mathlib.Data.List.TakeWhile
import JustApi.Lib.Run
import JustApi.Inference.ReplicaRouting

/-! # The model registry

The control plane's records of models, versions and aliases, and which version a
request that names one is resolved to. -/
namespace JustApi.Inference.ModelRegistry
open JustApi.Lib.Run
open JustApi.Inference.ReplicaRouting (EngineDevice updateFirst)

inductive WeightLocation where
  | «local» (path : String)
  | s3 (bucket key : String)
  | huggingFace (repo : String) (revision : Option String)
  | remoteRegistry (url : String)
  deriving DecidableEq, Repr

inductive QuantMethod where
  | none
  | gptq
  | awq
  | gguf
  | exl2
  | bitsAndBytes
  deriving DecidableEq, Repr

structure RuntimeProfile where
  device : EngineDevice := .cpu
  maxConcurrency : Nat := 1
  maxBatchTokens : Nat := 2048
  gpuMemoryMib : Nat := 0
  quantMethod : QuantMethod := .none
  expectedAdapters : List String := []
  deriving DecidableEq, Repr

structure ModelVersion where
  version : String
  weightLocation : WeightLocation
  runtimeProfile : RuntimeProfile := {}
  createdAtUnix : Nat := 0
  aliases : List String := []
  deriving DecidableEq, Repr

/-- The name is this version's or one of its aliases. -/
def ModelVersion.matches (v : ModelVersion) (name : String) : Bool :=
  v.version == name || v.aliases.any fun a => a == name

/-- A model with its versions in the order of their registration, and the adapters
by routing key. -/
structure ModelRecord where
  name : String
  versions : List ModelVersion
  defaultVersion : String
  adapterRouting : AList fun _ : String => String
  deriving DecidableEq

namespace ModelRecord

def new (name : String) : ModelRecord := ⟨name, [], "", ∅⟩

/-- The version takes the place of the first one with its name, or comes last. -/
def withVersion (versions : List ModelVersion) (version : ModelVersion) : List ModelVersion :=
  if versions.any fun v => v.version == version.version then
    updateFirst (fun v => v.version == version.version) (fun _ => version) versions
  else versions ++ [version]

def addVersion (record : ModelRecord) (version : ModelVersion) : ModelRecord :=
  let versions := withVersion record.versions version
  { record with
    versions
    defaultVersion :=
      if record.defaultVersion.isEmpty then (versions.getLast?.map (·.version)).getD ""
      else record.defaultVersion }

def resolveVersion (record : ModelRecord) (versionOrAlias : String) : Option ModelVersion :=
  record.versions.find? fun v => v.matches versionOrAlias

/-- The newest version; of those created at the same time `max_by_key` takes the last. -/
def latestVersion (record : ModelRecord) : Option ModelVersion :=
  record.versions.foldl (fun newest v =>
    match newest with
    | some n => if v.createdAtUnix < n.createdAtUnix then some n else some v
    | none => some v) none

def resolveAdapter (record : ModelRecord) (routingKey : String) : Option String :=
  record.adapterRouting.lookup routingKey

end ModelRecord

structure ResolvedModel where
  modelName : String
  version : String
  weightLocation : WeightLocation
  runtimeProfile : RuntimeProfile
  adapter : Option String
  deriving DecidableEq, Repr

structure ControlPlane where
  inner : AList fun _ : String => ModelRecord

namespace ControlPlane

def new : ControlPlane := ⟨∅⟩

def get (cp : ControlPlane) (name : String) : Option ModelRecord := cp.inner.lookup name

def register (cp : ControlPlane) (record : ModelRecord) : ControlPlane :=
  ⟨cp.inner.insert record.name record⟩

def registerVersion (cp : ControlPlane) (model : String) (version : ModelVersion) : ControlPlane :=
  ⟨cp.inner.insert model (((cp.get model).getD (.new model)).addVersion version)⟩

def unregister (cp : ControlPlane) (name : String) : ControlPlane := ⟨cp.inner.erase name⟩

/-- Resolve a model, with an explicit version or alias if the request has one, to what
serves it. An explicit miss is a miss. -/
def resolve (cp : ControlPlane) (model : String) (versionOrAlias routingKey : Option String) :
    Option ResolvedModel := do
  let record ← cp.get model
  let version ← match versionOrAlias with
    | some v => record.resolveVersion v
    | none => (record.resolveVersion record.defaultVersion).or record.latestVersion
  some {
    modelName := record.name
    version := version.version
    weightLocation := version.weightLocation
    runtimeProfile := version.runtimeProfile
    adapter := routingKey.bind record.resolveAdapter }

end ControlPlane

/-! ## One list of versions -/

open ModelRecord (withVersion)

/-- The names of the versions, in their order. -/
def names (versions : List ModelVersion) : List String := versions.map (·.version)

/-- Reading the list from the front, after the versions named in `seen`: no version has
as an alias the name of one that is first named behind it. -/
def Clear (seen : List String) : List ModelVersion → Prop
  | [] => True
  | v :: rest =>
    (∀ name ∈ names rest, name ∈ v.aliases → name ∈ v.version :: seen) ∧
      Clear (v.version :: seen) rest

/-- Nothing is captured by registering the version: if its name is new, it is nobody's
alias; and of the names behind the place it takes over, its aliases have only those that
come before it too. -/
def Captureless (versions : List ModelVersion) (version : ModelVersion) : Prop :=
  (version.version ∉ names versions → ∀ v ∈ versions, version.version ∉ v.aliases) ∧
  ∀ name ∈ ((names versions).dropWhile (· ≠ version.version)).tail, name ∈ version.aliases →
    name ∈ version.version :: (names versions).takeWhile (· ≠ version.version)

section Versions

variable {versions : List ModelVersion} {version : ModelVersion} {seen : List String}

theorem matches_iff {v : ModelVersion} {name : String} :
    v.matches name = true ↔ v.version = name ∨ name ∈ v.aliases := by
  simp [ModelVersion.matches]

theorem any_named_iff {name : String} :
    (versions.any fun v => v.version == name) = true ↔ name ∈ names versions := by
  simp only [names, List.any_eq_true, beq_iff_eq, List.mem_map]

/-- A list is clear exactly when the first version that matches a version's name has
that name, or the name was seen before. -/
theorem clear_iff_find : Clear seen versions ↔ ∀ name ∈ names versions, name ∉ seen →
    (versions.find? fun v => v.matches name).map (·.version) = some name := by
  induction versions generalizing seen with
  | nil => simp [Clear, names]
  | cons v rest ih =>
    simp only [Clear, ih, names, List.map_cons, List.forall_mem_cons]
    constructor
    · intro ⟨halias, hrest⟩
      refine ⟨fun _ => by simp [ModelVersion.matches], fun name hname hseen => ?_⟩
      by_cases hv : v.version = name
      · simp [ModelVersion.matches, hv]
      have hnot : v.matches name = false := by
        rw [Bool.eq_false_iff, Ne, matches_iff]
        intro h
        rcases h with h | h
        · exact hv h
        · simpa [Ne.symm hv, hseen] using halias name hname h
      simpa [List.find?_cons, hnot] using hrest name hname (by simp [Ne.symm hv, hseen])
    · intro ⟨_, hrest⟩
      constructor
      · intro name hname halias
        by_contra hout
        simp only [List.mem_cons, not_or] at hout
        have h := hrest name hname hout.2
        simp only [List.find?_cons, matches_iff.mpr (.inr halias : v.version = name ∨ _)] at h
        exact hout.1 (by simpa using h.symm)
      · intro name hname hout
        simp only [List.mem_cons, not_or] at hout
        have h := hrest name hname hout.2
        cases hv : v.matches name with
        | true => exact absurd (by simpa [List.find?_cons, hv] using h.symm) hout.1
        | false => simpa [List.find?_cons, hv] using h

/-- Registering a version never adds a second one of its name. -/
theorem names_withVersion (versions : List ModelVersion) (version : ModelVersion) :
    names (withVersion versions version) =
      if version.version ∈ names versions then names versions
      else names versions ++ [version.version] := by
  unfold withVersion
  by_cases h : version.version ∈ names versions
  · rw [if_pos h, if_pos (any_named_iff.mpr h)]
    exact JustApi.Inference.ReplicaRouting.Router.map_updateFirst
      (fun v hv => (by simpa using hv : v.version = version.version).symm) versions
  · rw [if_neg h, if_neg fun hany => h (any_named_iff.mp hany)]
    simp [names]

/-- It is from then on the first of its name, and the others are as they were. -/
theorem find_withVersion (versions : List ModelVersion) (version : ModelVersion) :
    ((withVersion versions version).find? fun v => v.version == version.version) =
        some version ∧
      (withVersion versions version).filter (fun v => v.version ≠ version.version) =
        versions.filter fun v => v.version ≠ version.version := by
  unfold withVersion
  split
  · rename_i hany
    induction versions with
    | nil => simp at hany
    | cons v rest ih =>
      by_cases hv : v.version = version.version
      · simp [updateFirst, hv]
      · have hrest := ih (by simpa [hv] using hany)
        simpa [updateFirst, hv] using hrest
  · rename_i hany
    have hnone : ∀ v ∈ versions, v.version ≠ version.version := by simpa using hany
    have hfind : (versions.find? fun v => v.version == version.version) = none :=
      List.find?_eq_none.mpr (by simpa using hnone)
    simp [List.find?_append, hfind]

theorem clear_append_singleton (hnew : version.version ∉ names versions)
    (hseen : version.version ∉ seen) : Clear seen (versions ++ [version]) ↔
      Clear seen versions ∧ ∀ v ∈ versions, version.version ∉ v.aliases := by
  induction versions generalizing seen with
  | nil => simp [Clear, names]
  | cons v rest ih =>
    simp only [names, List.map_cons, List.mem_cons, not_or] at hnew
    have hv : version.version ∉ v.version :: seen := by simp [hnew.1, hseen]
    simp only [List.cons_append, Clear, ih hnew.2 hv, names, List.map_append, List.map_singleton,
      List.forall_mem_append, List.forall_mem_singleton, List.forall_mem_cons]
    grind

theorem clear_updateFirst (hclear : Clear seen versions) (hmem : version.version ∈ names versions) :
    Clear seen (updateFirst (fun v => v.version == version.version) (fun _ => version) versions) ↔
      ∀ name ∈ ((names versions).dropWhile (· ≠ version.version)).tail, name ∈ version.aliases →
        name ∈ version.version :: ((names versions).takeWhile (· ≠ version.version) ++ seen) := by
  induction versions generalizing seen with
  | nil => simp [names] at hmem
  | cons v rest ih =>
    obtain ⟨halias, hrest⟩ := hclear
    by_cases hv : v.version = version.version
    · rw [hv] at hrest
      simp [updateFirst, hv, names, Clear, hrest]
    · have hmem' : version.version ∈ names rest := by
        simpa [names, Ne.symm hv] using hmem
      have hnames : names (updateFirst (fun v => v.version == version.version)
          (fun _ => version) rest) = names rest :=
        JustApi.Inference.ReplicaRouting.Router.map_updateFirst
          (fun v hv => (by simpa using hv : v.version = version.version).symm) rest
      have := ih hrest hmem'
      simp only [updateFirst, beq_iff_eq, hv, if_false, Clear, hnames, this]
      simp only [names] at halias ⊢
      simp [hv]
      grind

/-- What registering a version must not do, for the list to stay clear. -/
theorem clear_withVersion (hclear : Clear [] versions) :
    Clear [] (withVersion versions version) ↔ Captureless versions version := by
  unfold withVersion
  by_cases h : version.version ∈ names versions
  · rw [if_pos (any_named_iff.mpr h), clear_updateFirst hclear h]
    simp [Captureless, h]
  · rw [if_neg fun hany => h (any_named_iff.mp hany),
      clear_append_singleton h (List.not_mem_nil), and_iff_right hclear]
    have hdrop : (names versions).dropWhile (· ≠ version.version) = [] := by
      refine List.dropWhile_eq_nil_iff.mpr fun name hname => ?_
      simpa using fun he : name = version.version => h (he ▸ hname)
    simp only [Captureless, hdrop]
    simp [h]

end Versions

/-! ## Requests for a version -/

namespace ControlPlane

variable {cp : ControlPlane} {model name : String}

/-- The versions registered under a model, none for one that is not registered. -/
def versions (cp : ControlPlane) (model : String) : List ModelVersion :=
  ((cp.get model).map (·.versions)).getD []

/-- A request that names a registered version is resolved to that version. -/
def ServesVersions (cp : ControlPlane) : Prop :=
  ∀ model, ∀ name ∈ names (cp.versions model), ∀ key,
    (cp.resolve model (some name) key).map (·.version) = some name

theorem version_resolve (cp : ControlPlane) (model name : String) (key : Option String) :
    (cp.resolve model (some name) key).map (·.version) =
      ((cp.versions model).find? fun v => v.matches name).map (·.version) := by
  unfold resolve versions
  cases cp.get model with
  | none => rfl
  | some record =>
    show ((record.resolveVersion name).bind _).map _ = (record.resolveVersion name).map _
    cases record.resolveVersion name <;> rfl

theorem servesVersions_iff : cp.ServesVersions ↔ ∀ model, Clear [] (cp.versions model) := by
  simp [ServesVersions, version_resolve, clear_iff_find]

/-- Nothing is resolved exactly for a name that is neither a version's nor an alias. -/
theorem resolve_eq_none_iff {key : Option String} : cp.resolve model (some name) key = none ↔
    ∀ v ∈ cp.versions model, v.version ≠ name ∧ name ∉ v.aliases := by
  rw [← Option.map_eq_none_iff (f := (·.version)), version_resolve, Option.map_eq_none_iff,
    List.find?_eq_none]
  refine forall₂_congr fun v _ => ?_
  rw [matches_iff, not_or]

theorem versions_register (cp : ControlPlane) (record : ModelRecord) (model : String) :
    (cp.register record).versions model =
      if model = record.name then record.versions else cp.versions model := by
  unfold versions get register
  by_cases h : model = record.name
  · subst h
    simp
  · simp [h, AList.lookup_insert_ne h]

theorem versions_registerVersion (cp : ControlPlane) (name : String) (version : ModelVersion)
    (model : String) : (cp.registerVersion name version).versions model =
      if model = name then withVersion (cp.versions name) version else cp.versions model := by
  unfold versions get registerVersion
  by_cases h : model = name
  · subst h
    cases hget : cp.inner.lookup model <;>
      simp [get, hget, ModelRecord.addVersion, ModelRecord.new]
  · simp [h, AList.lookup_insert_ne h]

theorem versions_unregister (cp : ControlPlane) (name model : String) :
    (cp.unregister name).versions model = if model = name then [] else cp.versions model := by
  unfold versions get unregister
  by_cases h : model = name
  · subst h
    simp
  · simp [h, AList.lookup_erase_ne h]

end ControlPlane

/-- A call that changes the registry. -/
inductive Op where
  | register (record : ModelRecord)
  | registerVersion (model : String) (version : ModelVersion)
  | unregister (name : String)

def exec (cp : ControlPlane) : Op → ControlPlane
  | .register record => cp.register record
  | .registerVersion model version => cp.registerVersion model version
  | .unregister name => cp.unregister name

def Step (cp : ControlPlane) (op : Op) (cp' : ControlPlane) : Prop := exec cp op = cp'

/-- The call lets no alias capture the name of a version. -/
def Op.Captureless (cp : ControlPlane) : Op → Prop
  | .register record => Clear [] record.versions
  | .registerVersion model version => ModelRegistry.Captureless (cp.versions model) version
  | .unregister _ => True

theorem clear_exec_iff {cp : ControlPlane} (h : ∀ model, Clear [] (cp.versions model)) (op : Op) :
    (∀ model, Clear [] ((exec cp op).versions model)) ↔ op.Captureless cp := by
  cases op with
  | register record =>
    simp only [exec, ControlPlane.versions_register, Op.Captureless]
    constructor
    · intro hall
      simpa using hall record.name
    · intro hrec model
      split
      · exact hrec
      · exact h model
  | registerVersion name version =>
    simp only [exec, ControlPlane.versions_registerVersion, Op.Captureless]
    rw [← clear_withVersion (h name)]
    constructor
    · intro hall
      simpa using hall name
    · intro hver model
      split
      · exact hver
      · exact h model
  | unregister name =>
    simp only [exec, ControlPlane.versions_unregister, Op.Captureless, iff_true]
    intro model
    split
    · trivial
    · exact h model

/-- **Requests for an explicit version.** In every state of every run of registrations:
nothing is resolved exactly when the name is neither a version's nor an alias, and
registering a version again replaces the first of its name and adds no second one. Every
registered version is what a request for its name gets, throughout the run, exactly when
no registration puts a version's name behind another version that has it as an alias. -/
theorem explicit_version_served_iff (tr : List (Op × ControlPlane)) (hrun : Along Step .new tr) :
    (∀ cp ∈ visited .new tr,
      (∀ model name key, cp.resolve model (some name) key = none ↔
        ∀ v ∈ cp.versions model, v.version ≠ name ∧ name ∉ v.aliases) ∧
      ∀ model version, let after := (cp.registerVersion model version).versions model
        names after = (if version.version ∈ names (cp.versions model) then
          names (cp.versions model) else names (cp.versions model) ++ [version.version]) ∧
        (after.find? fun v => v.version == version.version) = some version ∧
        after.filter (fun v => v.version ≠ version.version) =
          (cp.versions model).filter fun v => v.version ≠ version.version) ∧
    ((∀ cp ∈ visited .new tr, cp.ServesVersions) ↔
      Along (fun cp op _ => op.Captureless cp) .new tr) := by
  refine ⟨fun cp _ => ⟨fun model name key => ControlPlane.resolve_eq_none_iff, ?_⟩, ?_⟩
  · intro model version after
    have hafter : after = withVersion (cp.versions model) version := by
      simp [after, ControlPlane.versions_registerVersion]
    rw [hafter]
    exact ⟨names_withVersion _ version, find_withVersion _ version⟩
  · refine hrun.forall_visited_iff (I := fun cp => ∀ model, Clear [] (cp.versions model)) ?_ ?_ ?_ ?_
    · intro cp op cp' h hstep hop
      exact hstep ▸ (clear_exec_iff h op).mpr hop
    · intro cp op cp' h hstep hserves
      rw [ControlPlane.servesVersions_iff, ← hstep] at hserves
      exact (clear_exec_iff h op).mp hserves
    · intro cp h
      exact ControlPlane.servesVersions_iff.mpr h
    · intro model
      trivial

/-- A version and the next one, which takes the name of the first as an alias. -/
def aliasOfEarlier : List Op :=
  [.registerVersion "m" { version := "v1", weightLocation := .«local» "/models/v1" },
    .registerVersion "m"
      { version := "v2", weightLocation := .«local» "/models/v2", aliases := ["v1"] }]

/-- The alias comes behind the version that has it as its name. -/
theorem explicit_version_served_iff_alias_of_earlier :
    ∃ tr : List (Op × ControlPlane), tr.map Prod.fst = aliasOfEarlier ∧
      ∀ cp ∈ visited .new tr, cp.ServesVersions := by
  have hrun : Along Step .new [(aliasOfEarlier[0], _), (aliasOfEarlier[1], _)] :=
    ⟨rfl, rfl, trivial⟩
  refine ⟨_, rfl, (explicit_version_served_iff _ hrun).2.mpr ⟨?_, ?_, trivial⟩⟩
  · simp [aliasOfEarlier, Op.Captureless, Captureless, ControlPlane.versions, ControlPlane.get,
      ControlPlane.new, names]
  · show Captureless [_] _
    simp [Captureless, names]

/-- A version that promises the name of the next one as its alias, and the next one. -/
def aliasOfLater : List Op :=
  [.registerVersion "m"
      { version := "v1", weightLocation := .«local» "/models/v1", aliases := ["v2"] },
    .registerVersion "m" { version := "v2", weightLocation := .«local» "/models/v2" }]

/-- Then a request for the second version is resolved to the first. -/
theorem alias_captures_later_version :
    ∃ tr : List (Op × ControlPlane), tr.map Prod.fst = aliasOfLater ∧ Along Step .new tr ∧
      ∃ cp ∈ visited .new tr, "v2" ∈ names (cp.versions "m") ∧
        (cp.resolve "m" (some "v2") none).map (·.version) = some "v1" ∧ ¬ cp.ServesVersions := by
  have hrun : Along Step .new [(aliasOfLater[0], _), (aliasOfLater[1], _)] := ⟨rfl, rfl, trivial⟩
  refine ⟨_, rfl, hrun, _, List.mem_cons_of_mem _ (List.mem_of_mem_getLast? rfl), ?_, ?_, ?_⟩
  · decide
  · decide
  · intro hserves
    have h := hserves "m" "v2" (by decide) none
    exact absurd h (by decide)

end JustApi.Inference.ModelRegistry
