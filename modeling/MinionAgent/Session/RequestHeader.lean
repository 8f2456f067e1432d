import MinionAgent.Llm.Service
import MinionAgent.Session.Artifacts
import MinionAgent.Session.Log

/-!
# MinionAgent.Session.RequestHeader

Request headers as compositions of content-addressed components
(`session/request_header.py`).

* `recordHeader`, `reconstructHeader`, `reconstructTools` — the components and
  tools of a request, stored by hash, and read back;
* `assembleSystem` — the system text, from the components;
* `header_reconstructed` — a later store gives back what was recorded.
-/

namespace MinionAgent

open Py

/-- `assemble_system`: joined in the order of the names. -/
def assembleSystem (components : List (String × String)) : String :=
  "\n\n".intercalate ((components.insertionSort Json.byKey).map Prod.snd)

/-- `json.dumps` of the tools' schemas. -/
def toolsPayload (tools : List ToolSchema) : Option String := Json.dumps (.list (tools.map ToolSchema.asJson))

/-- The references that a header logs. -/
def headerData (sha256 : ByteArray → String) (components : List (String × String)) (model payload : String) : Dict :=
  [("model", .str model),
    ("components",
      .dict (components.map fun component => (component.1, .str (ArtifactStore.reference sha256 component.2.toUTF8)))),
    ("tools", .str (ArtifactStore.reference sha256 payload.toUTF8))]

/-- The components of a header, stored. -/
def storeComponents (sha256 : ByteArray → String) (store : ArtifactStore) (components : List (String × String)) :
    ArtifactStore :=
  components.foldl (fun store component => store.putText sha256 component.2) store

/-- `record_header`, up to the append: the store it leaves, and the data it
logs.  Tools with parameters that are no JSON are refused. -/
def recordHeader (sha256 : ByteArray → String) (store : ArtifactStore) (components : List (String × String))
    (model : String) (tools : List ToolSchema) : ArtifactStore × Option Dict :=
  let store := storeComponents sha256 store components
  match toolsPayload tools with
  | none => (store, none)
  | some payload => (store.putText sha256 payload, some (headerData sha256 components model payload))

/-- One component, by its reference. -/
def readComponent (sha256 : ByteArray → String) (store : ArtifactStore) (reference : String × Value) :
    Option (String × String) := do
  return (reference.1, ← store.getText? sha256 (← reference.2.str?))

/-- `reconstruct_header`. -/
def reconstructHeader (sha256 : ByteArray → String) (data : Dict) (store : ArtifactStore) :
    Option (List (String × String)) := do
  (← (← data.lookup "components").items?).mapM (readComponent sha256 store)

/-- `reconstruct_tools`. -/
def reconstructTools (sha256 : ByteArray → String) (floats : Json.FloatReader) (data : Dict) (store : ArtifactStore) :
    Option (List ToolSchema) := do
  let raw ← Json.loads floats (← store.getText? sha256 (← (← data.lookup "tools").str?))
  (← raw.elems?).mapM ToolSchema.ofJson?

/-! ## What is stored stays -/

theorem fromUTF8?_toUTF8 (text : String) : String.fromUTF8? text.toUTF8 = some text :=
  dif_pos text.isValidUTF8

namespace ArtifactStore

variable {sha256 : ByteArray → String}

theorem contents_storeComponents (store : ArtifactStore) (components : List (String × String)) :
    store.contents <+: (storeComponents sha256 store components).contents := by
  induction components generalizing store with
  | nil => exact List.prefix_refl _
  | cons component components ih => exact (contents_put store _).trans (ih _)

/-- A text that was put is read back from every later store, if its digest is
no other's. -/
theorem getText?_of_put {store later : ArtifactStore} {text : String} {contents : List ByteArray}
    (hlater : (store.putText sha256 text).contents <+: later.contents) (hfree : CollisionFree sha256 contents)
    (htext : text.toUTF8 ∈ contents) (hstore : store.contents ⊆ contents) :
    later.getText? sha256 (reference sha256 text.toUTF8) = some text := by
  have hput : (store.putText sha256 text).get? sha256 (reference sha256 text.toUTF8) = some text.toUTF8 := by
    refine get?_put fun raw hraw other hother => ?_
    have hsub : text.toUTF8 :: store.contents ⊆ contents := List.cons_subset.mpr ⟨htext, hstore⟩
    exact hfree raw (hsub hraw) other (hsub hother)
  rw [getText?, get?_of_prefix hlater hput]
  exact fromUTF8?_toUTF8 text

/-- Every stored component is read back from a later store. -/
theorem getText?_of_storeComponents {store later : ArtifactStore} {components : List (String × String)}
    {contents : List ByteArray} (hlater : (storeComponents sha256 store components).contents <+: later.contents)
    (hfree : CollisionFree sha256 contents) (htexts : ∀ component ∈ components, component.2.toUTF8 ∈ contents)
    (hstore : store.contents ⊆ contents) :
    ∀ component ∈ components, later.getText? sha256 (reference sha256 component.2.toUTF8) = some component.2 := by
  induction components generalizing store with
  | nil => simp
  | cons component components ih =>
    have htext := htexts component List.mem_cons_self
    have hput : (store.putText sha256 component.2).contents ⊆ contents := by
      intro raw hraw
      obtain hold | rfl := mem_contents_put hraw
      · exact hstore hold
      · exact htext
    intro other hother
    obtain rfl | hrest := List.mem_cons.mp hother
    · exact getText?_of_put ((contents_storeComponents _ components).trans hlater) hfree htext hstore
    · exact ih hlater (fun c hc => htexts c (List.mem_cons_of_mem _ hc)) hput other hrest

end ArtifactStore

/-! ## Headers are read back -/

section

variable {sha256 : ByteArray → String}

/-- The texts that a header stores. -/
def headerTexts (components : List (String × String)) (payload : String) : List ByteArray :=
  payload.toUTF8 :: components.map fun component => component.2.toUTF8

theorem reconstructHeader_headerData {later : ArtifactStore} {components : List (String × String)}
    {model payload : String}
    (h : ∀ component ∈ components,
      later.getText? sha256 (ArtifactStore.reference sha256 component.2.toUTF8) = some component.2) :
    reconstructHeader sha256 (headerData sha256 components model payload) later = some components := by
  have hread : (components.map fun component =>
      (component.1, Value.str (ArtifactStore.reference sha256 component.2.toUTF8))).mapM (readComponent sha256 later) =
      some components := by
    induction components with
    | nil => rfl
    | cons component components ih =>
      have hfirst : readComponent sha256 later
          (component.1, .str (ArtifactStore.reference sha256 component.2.toUTF8)) = some component := by
        simp only [readComponent, Value.str?_str, Option.bind_eq_bind, Option.bind_some, h component List.mem_cons_self]
        rfl
      have hrest := ih fun c hc => h c (List.mem_cons_of_mem _ hc)
      rw [List.map_cons, List.mapM_cons, hfirst, hrest]
      rfl
  simpa [reconstructHeader, headerData, List.lookup_cons] using hread

/-- Stored schemas are read back, one by one. -/
theorem mapM_ofJson? {tools : List ToolSchema} (h : ∀ tool ∈ tools, (Value.dict tool.parameters).IsJson) :
    ∃ read, (Json.sortKeysElems (tools.map ToolSchema.asJson)).mapM ToolSchema.ofJson? = some read ∧
      List.Forall₂ ToolSchema.Same read tools := by
  induction tools with
  | nil => exact ⟨[], rfl, .nil⟩
  | cons tool tools ih =>
    obtain ⟨first, hfirst, hsame⟩ := ToolSchema.ofJson?_asJson (h tool List.mem_cons_self)
    obtain ⟨rest, hrest, hsames⟩ := ih fun t ht => h t (List.mem_cons_of_mem _ ht)
    exact ⟨first :: rest, by simp [Json.sortKeysElems, List.mapM_cons, hfirst, hrest], .cons hsame hsames⟩

theorem isJson_tools {tools : List ToolSchema} (h : ∀ tool ∈ tools, (Value.dict tool.parameters).IsJson) :
    (Value.list (tools.map ToolSchema.asJson)).IsJson := by
  rw [Value.IsJson]
  induction tools with
  | nil => exact trivial
  | cons tool tools ih =>
    exact ⟨ToolSchema.isJson_asJson (h tool List.mem_cons_self), ih fun t ht => h t (List.mem_cons_of_mem _ ht)⟩

/-- Stored tools are read back; their parameters come with sorted keys. -/
theorem reconstructTools_headerData (floats : Json.FloatReader) {later : ArtifactStore}
    {components : List (String × String)} {model payload : String} {tools : List ToolSchema}
    (hpayload : toolsPayload tools = some payload)
    (htext : later.getText? sha256 (ArtifactStore.reference sha256 payload.toUTF8) = some payload)
    (hparameters : ∀ tool ∈ tools, (Value.dict tool.parameters).IsJson) :
    ∃ read, reconstructTools sha256 floats (headerData sha256 components model payload) later = some read ∧
      List.Forall₂ ToolSchema.Same read tools := by
  obtain ⟨payload', hpayload', hloads⟩ := Json.loads_dumps floats (isJson_tools hparameters)
  obtain rfl : payload = payload' := Option.some.inj (hpayload.symm.trans hpayload')
  obtain ⟨read, hread, hsame⟩ := mapM_ofJson? hparameters
  refine ⟨read, ?_, hsame⟩
  have htools : (headerData sha256 components model payload).lookup "tools" =
      some (.str (ArtifactStore.reference sha256 payload.toUTF8)) := by
    simp [headerData, List.lookup_cons]
  simp only [reconstructTools, htools, Option.bind_eq_bind, Option.bind_some, Value.str?_str, htext, hloads,
    Json.sortKeys, Value.elems?_list, hread]

/-- What was recorded is read back from every later store, if no digests
collide among what is stored and recorded; the parameters of a tool come back
with sorted keys. -/
theorem header_reconstructed (floats : Json.FloatReader) {store store' later : ArtifactStore}
    {components : List (String × String)} {model : String} {tools : List ToolSchema} {data : Dict}
    (hrecord : recordHeader sha256 store components model tools = (store', some data))
    (hlater : store'.contents <+: later.contents) {contents : List ByteArray} (hfree : CollisionFree sha256 contents)
    (hstore : store.contents ⊆ contents)
    (htexts : ∀ payload, toolsPayload tools = some payload → headerTexts components payload ⊆ contents)
    (hparameters : ∀ tool ∈ tools, (Value.dict tool.parameters).IsJson) :
    reconstructHeader sha256 data later = some components ∧
      ∃ read, reconstructTools sha256 floats data later = some read ∧ List.Forall₂ ToolSchema.Same read tools := by
  obtain ⟨payload, hpayload, -⟩ := Json.loads_dumps floats (isJson_tools hparameters)
  rw [recordHeader, toolsPayload, hpayload] at hrecord
  obtain ⟨rfl, hdata⟩ := Prod.mk.inj hrecord
  obtain rfl := Option.some.inj hdata
  have hsub := htexts payload hpayload
  have hcomponents : ∀ component ∈ components, component.2.toUTF8 ∈ contents := fun component hmem =>
    hsub (List.mem_cons_of_mem _ (List.mem_map_of_mem hmem))
  have hstored : (storeComponents sha256 store components).contents ⊆ contents := by
    clear hrecord hdata hlater hpayload htexts hsub
    induction components generalizing store with
    | nil => exact hstore
    | cons component components ih =>
      refine ih ?_ fun c hc => hcomponents c (List.mem_cons_of_mem _ hc)
      intro raw hraw
      obtain hold | rfl := ArtifactStore.mem_contents_put hraw
      · exact hstore hold
      · exact hcomponents component List.mem_cons_self
  refine ⟨reconstructHeader_headerData ?_, ?_⟩
  · exact ArtifactStore.getText?_of_storeComponents ((ArtifactStore.contents_put _ _).trans hlater) hfree hcomponents
      hstore
  · have htext := ArtifactStore.getText?_of_put hlater hfree (hsub List.mem_cons_self) hstored
    exact reconstructTools_headerData floats hpayload htext hparameters

end

/-- `float` where the texts are those of `repr`. -/
def reprReader : Json.FloatReader where
  read token := if h : isFloatRepr token = true then some ⟨token, h⟩ else none
  read_repr f := dif_pos f.isRepr

/-- A digest that is the content itself. -/
def contentDigest (raw : ByteArray) : String :=
  String.ofList (raw.data.toList.map fun byte => Char.ofNat byte.toNat)

theorem contentDigest_collisionFree (contents : List ByteArray) : CollisionFree contentDigest contents := by
  intro raw _ other _ heq
  have hbyte : Function.Injective fun byte : UInt8 => Char.ofNat byte.toNat := by
    intro a b hab
    have hnat := congrArg Char.toNat hab
    have hvalid : ∀ byte : UInt8, (Char.ofNat byte.toNat).toNat = byte.toNat := by
      intro byte
      have hlt := byte.toNat_lt
      have hvalid : byte.toNat.isValidChar := .inl (by omega)
      rw [Char.ofNat, dif_pos hvalid]
      rfl
    rw [hvalid, hvalid] at hnat
    exact UInt8.toNat_inj.mp hnat
  have hlist := congrArg String.toList heq
  simp only [contentDigest, String.toList_ofList] at hlist
  have hdata := List.map_injective_iff.mpr hbyte hlist
  exact ByteArray.ext (Array.toList_inj.mp hdata)

/-- Two components and a tool, read from a store that has taken a text since. -/
theorem header_reconstructed_later : ∃ store data read,
    recordHeader contentDigest {} [("system_base", "s"), ("skills", "t")] "m"
        [⟨"echo", "", [("type", .str "object"), ("properties", .dict [])], .absent⟩] = (store, some data) ∧
      reconstructHeader contentDigest data (store.putText contentDigest "u") =
        some [("system_base", "s"), ("skills", "t")] ∧
      reconstructTools contentDigest reprReader data (store.putText contentDigest "u") = some read ∧
      List.Forall₂ ToolSchema.Same read
        [⟨"echo", "", [("type", .str "object"), ("properties", .dict [])], .absent⟩] := by
  have hrecorded : ∃ store data, recordHeader contentDigest {} [("system_base", "s"), ("skills", "t")] "m"
      [⟨"echo", "", [("type", .str "object"), ("properties", .dict [])], .absent⟩] = (store, some data) := ⟨_, _, rfl⟩
  obtain ⟨store, data, hrecord⟩ := hrecorded
  obtain ⟨hheader, read, htools, hsame⟩ := header_reconstructed reprReader hrecord
    (ArtifactStore.contents_put store "u".toUTF8) (contentDigest_collisionFree (headerTexts _ _)) (List.nil_subset _)
    (fun payload hpayload => by rw [← Option.some.inj hpayload]; exact List.Subset.refl _)
    (by simp [Value.IsJson, Value.IsJsonItems])
  exact ⟨store, data, read, hrecord, hheader, htools, hsame⟩

end MinionAgent
