import Mathlib.Data.List.Basic

/-!
# MinionAgent.Session.Artifacts

The content-addressed store (`session/artifacts.py`).

The keys of the source's dict are the references of its values, so a store is
the list of its values, oldest first.  The digest is a parameter.
-/

namespace MinionAgent

/-- The texts a digest is taken of are told apart by it. -/
def CollisionFree (sha256 : ByteArray → String) (contents : List ByteArray) : Prop :=
  ∀ raw ∈ contents, ∀ other ∈ contents, sha256 raw = sha256 other → raw = other

/-- Maps content hashes to content. -/
structure ArtifactStore where
  contents : List ByteArray := []

namespace ArtifactStore

/-- The reference of a content. -/
def reference (sha256 : ByteArray → String) (raw : ByteArray) : String := "sha256:" ++ sha256 raw

/-- `get(ref)`. -/
def get? (sha256 : ByteArray → String) (store : ArtifactStore) (ref : String) : Option ByteArray :=
  store.contents.find? fun raw => reference sha256 raw == ref

/-- `put(content)`: a reference that is held keeps its content. -/
def put (sha256 : ByteArray → String) (store : ArtifactStore) (content : ByteArray) : ArtifactStore :=
  if (store.get? sha256 (reference sha256 content)).isSome then store else ⟨store.contents ++ [content]⟩

/-- `put` of a text. -/
def putText (sha256 : ByteArray → String) (store : ArtifactStore) (text : String) : ArtifactStore :=
  store.put sha256 text.toUTF8

/-- `get(ref).decode("utf-8")`. -/
def getText? (sha256 : ByteArray → String) (store : ArtifactStore) (ref : String) : Option String := do
  String.fromUTF8? (← store.get? sha256 ref)

variable {sha256 : ByteArray → String}

theorem reference_inj {raw other : ByteArray} :
    reference sha256 raw = reference sha256 other ↔ sha256 raw = sha256 other := by
  rw [reference, reference]
  constructor
  · intro h
    have hlist := congrArg String.toList h
    rw [String.toList_append, String.toList_append] at hlist
    exact String.toList_injective (List.append_cancel_left hlist)
  · intro h
    rw [h]

/-- What is held was put, under its reference. -/
theorem get?_eq_some {store : ArtifactStore} {ref : String} {raw : ByteArray} (h : store.get? sha256 ref = some raw) :
    raw ∈ store.contents ∧ reference sha256 raw = ref := by
  have hmem := List.mem_of_find?_eq_some h
  have href := List.find?_some h
  exact ⟨hmem, by simpa using href⟩

/-- A store only grows. -/
theorem contents_put (store : ArtifactStore) (content : ByteArray) :
    store.contents <+: (store.put sha256 content).contents := by
  unfold put
  split
  · exact List.prefix_refl _
  · exact List.prefix_append _ _

theorem mem_contents_put {store : ArtifactStore} {content raw : ByteArray}
    (h : raw ∈ (store.put sha256 content).contents) : raw ∈ store.contents ∨ raw = content := by
  unfold put at h
  split at h
  · exact Or.inl h
  · rw [List.mem_append, List.mem_singleton] at h
    exact h

/-- What is held stays held as a store grows. -/
theorem get?_of_prefix {store store' : ArtifactStore} (h : store.contents <+: store'.contents) {ref : String}
    {raw : ByteArray} (hraw : store.get? sha256 ref = some raw) : store'.get? sha256 ref = some raw := by
  obtain ⟨more, hmore⟩ := h
  rw [get?, ← hmore, List.find?_append]
  rw [get?] at hraw
  rw [hraw]
  rfl

/-- Without collisions, a content is read back. -/
theorem get?_put {store : ArtifactStore} {content : ByteArray}
    (hfree : CollisionFree sha256 (content :: store.contents)) :
    (store.put sha256 content).get? sha256 (reference sha256 content) = some content := by
  unfold put
  split
  · next hheld =>
    obtain ⟨raw, hraw⟩ := Option.isSome_iff_exists.mp hheld
    obtain ⟨hmem, href⟩ := get?_eq_some hraw
    rw [hraw, hfree raw (List.mem_cons_of_mem _ hmem) content List.mem_cons_self (reference_inj.mp href)]
  · next hnew =>
    rw [Option.not_isSome_iff_eq_none, get?] at hnew
    rw [get?, List.find?_append, hnew]
    simp

end ArtifactStore

end MinionAgent
